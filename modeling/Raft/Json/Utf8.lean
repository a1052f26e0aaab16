import Raft.Ident

/-!
# Text as bytes

`Utf8.encode` writes a text in one to four bytes per character, and `Utf8.decode` reads such
bytes. Reading is strict: each character has to be written in its shortest form, and the
surrogate code points are no characters.
-/

namespace Raft.Json.Utf8

/-- The bytes of one character. -/
def encodeChar (c : Char) : Bytes :=
  let n := c.toNat
  let tail (k : Nat) : UInt8 := (0x80 + k % 64).toUInt8
  if n < 0x80 then [n.toUInt8]
  else if n < 0x800 then [(0xC0 + n / 64).toUInt8, tail n]
  else if n < 0x10000 then [(0xE0 + n / 4096).toUInt8, tail (n / 64), tail n]
  else [(0xF0 + n / 262144).toUInt8, tail (n / 4096), tail (n / 64), tail n]

/-- The bytes of a text. -/
def encode (s : String) : Bytes := s.toList.flatMap encodeChar

/-- Whether a byte continues a character. -/
def isTail (b : UInt8) : Bool := decide (0x80 ≤ b.toNat ∧ b.toNat < 0xC0)

/-- The character with a code point that is at least `least`, the smallest one that needs as
many bytes. -/
def charFrom? (least n : Nat) : Option Char :=
  if least ≤ n ∧ n.isValidChar then some (Char.ofNat n) else none

/-- Reads the first character off some bytes, which are not empty. -/
def decodeChar? (a : UInt8) (rest : Bytes) : Option (Char × Bytes) :=
  let low (b : UInt8) := b.toNat % 64
  if a.toNat < 0x80 then some (Char.ofNat a.toNat, rest)
  else
    match rest with
    | [] => none
    | b :: rest =>
      if ¬ isTail b then none
      else if 0xC0 ≤ a.toNat ∧ a.toNat < 0xE0 then
        (charFrom? 0x80 (a.toNat % 32 * 64 + low b)).map (·, rest)
      else
        match rest with
        | [] => none
        | c :: rest =>
          if ¬ isTail c then none
          else if 0xE0 ≤ a.toNat ∧ a.toNat < 0xF0 then
            (charFrom? 0x800 (a.toNat % 16 * 4096 + low b * 64 + low c)).map (·, rest)
          else
            match rest with
            | [] => none
            | d :: rest =>
              if isTail d ∧ 0xF0 ≤ a.toNat ∧ a.toNat < 0xF8 then
                (charFrom? 0x10000
                  (a.toNat % 8 * 262144 + low b * 4096 + low c * 64 + low d)).map (·, rest)
              else none

/-- Reads characters, at most as many as `budget`. -/
def decodeWithin : Nat → Bytes → Option (List Char)
  | _, [] => some []
  | 0, _ :: _ => none
  | budget + 1, a :: rest => do
    let (c, rest) ← decodeChar? a rest
    let cs ← decodeWithin budget rest
    return c :: cs

/-- The text with the given bytes. A text has no more characters than bytes. -/
def decode (bytes : Bytes) : Option String :=
  (decodeWithin bytes.length bytes).map String.ofList

end Raft.Json.Utf8
