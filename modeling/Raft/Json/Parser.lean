import Raft.Json.Utf8
import Raft.Json.Value

/-!
# Reading JSON texts

`Value.parse?` reads a JSON text: one value, with blanks around it and nothing else after it.
The grammar is the strict one. A text is refused for a superfluous comma, a leading zero, a
control character inside a string, an unknown escape. What a string denotes is settled after its
end was found, so a string that denotes no text is no reason to refuse (`Value.brokenText`).

The parsers take a fuel that bounds their nesting. `Value.parse?` gives as much as the text is
long, which always suffices.
-/

namespace Raft.Json

/-- The byte of an ASCII character. -/
def ascii (c : Char) : UInt8 := c.toNat.toUInt8

/-- Whether a byte separates the parts of a text. -/
def isBlank (b : UInt8) : Bool := b == 0x20 || b == 0x09 || b == 0x0A || b == 0x0D

/-- Whether a byte is a decimal digit. -/
def isDigit (b : UInt8) : Bool := ascii '0' ≤ b && b ≤ ascii '9'

/-- The rest of a text from its first part on. -/
def skipBlanks (s : Bytes) : Bytes := s.dropWhile isBlank

/-- What follows a word, if the text starts with it. -/
def dropWord? (word s : Bytes) : Option Bytes :=
  if word.isPrefixOf s then some (s.drop word.length) else none

/-! ### Numerals -/

/-- The number that a list of digits denotes. -/
def ofDigits (ds : Bytes) : Nat := ds.foldl (fun n d => 10 * n + (d.toNat - 48)) 0

/-- A list of digits, which is not empty, with what follows it. -/
def parseDigits? (s : Bytes) : Option (Bytes × Bytes) :=
  let ds := s.takeWhile isDigit
  if ds.isEmpty then none else some (ds, s.dropWhile isDigit)

/-- The digits before the point. None may follow a leading zero. -/
def parseWhole? (s : Bytes) : Option (Bytes × Bytes) :=
  match s with
  | [] => none
  | b :: r => if b = ascii '0' then some ([b], r) else parseDigits? s

/-- What follows a fraction, if there is one. A point calls for digits. -/
def skipFraction? (s : Bytes) : Option (Bool × Bytes) :=
  match s with
  | [] => some (false, s)
  | b :: r => if b = ascii '.' then (parseDigits? r).map (true, ·.2) else some (false, s)

/-- A sign may stand before the digits of an exponent. -/
def skipSign (s : Bytes) : Bytes :=
  match s with
  | [] => s
  | b :: r => if b = ascii '+' ∨ b = ascii '-' then r else s

/-- What follows an exponent, if there is one. -/
def skipExponent? (s : Bytes) : Option (Bool × Bytes) :=
  match s with
  | [] => some (false, s)
  | b :: r =>
    if b = ascii 'e' ∨ b = ascii 'E' then (parseDigits? (skipSign r)).map (true, ·.2)
    else some (false, s)

/-- A numeral without a sign. -/
def parseUnsigned? (s : Bytes) : Option (Value × Bytes) := do
  let (ds, s) ← parseWhole? s
  let (fraction, s) ← skipFraction? s
  let (exponent, s) ← skipExponent? s
  return (if fraction || exponent then .otherNumeral else .natural (ofDigits ds), s)

/-- A numeral. -/
def parseNumeral? (s : Bytes) : Option (Value × Bytes) :=
  match s with
  | [] => none
  | b :: r =>
    if b = ascii '-' then (parseUnsigned? r).map fun p => (.otherNumeral, p.2)
    else parseUnsigned? s

/-! ### Strings -/

/-- A part of a string: a byte that stands for itself, or a code unit of UTF-16 written as an
escape. -/
inductive Piece
  | byte (b : UInt8)
  | unit (u : Nat)
  deriving DecidableEq

/-- The value of a hexadecimal digit. -/
def hexDigit? (b : UInt8) : Option Nat :=
  if isDigit b then some (b.toNat - 48)
  else if ascii 'a' ≤ b ∧ b ≤ ascii 'f' then some (b.toNat - 87)
  else if ascii 'A' ≤ b ∧ b ≤ ascii 'F' then some (b.toNat - 55)
  else none

/-- The code unit written by four hexadecimal digits. -/
def hexUnit? (a b c d : UInt8) : Option Nat := do
  let a ← hexDigit? a
  let b ← hexDigit? b
  let c ← hexDigit? c
  let d ← hexDigit? d
  return ((a * 16 + b) * 16 + c) * 16 + d

/-- The byte that a short escape stands for. -/
def shortEscape? (b : UInt8) : Option UInt8 :=
  if b = ascii '"' ∨ b = ascii '\\' ∨ b = ascii '/' then some b
  else if b = ascii 'b' then some 0x08
  else if b = ascii 'f' then some 0x0C
  else if b = ascii 'n' then some 0x0A
  else if b = ascii 'r' then some 0x0D
  else if b = ascii 't' then some 0x09
  else none

/-- Reads a string up to the quote that ends it. -/
def scanString? : Bytes → Option (List Piece × Bytes)
  | [] => none
  | b :: r =>
    if b = ascii '"' then some ([], r)
    else if b.toNat < 0x20 then none
    else if b = ascii '\\' then
      match r with
      | [] => none
      | e :: r =>
        if e = ascii 'u' then
          match r with
          | h₁ :: h₂ :: h₃ :: h₄ :: r => do
            let u ← hexUnit? h₁ h₂ h₃ h₄
            let (ps, r) ← scanString? r
            return (.unit u :: ps, r)
          | _ => none
        else do
          let e ← shortEscape? e
          let (ps, r) ← scanString? r
          return (.byte e :: ps, r)
    else do
      let (ps, r) ← scanString? r
      return (.byte b :: ps, r)

/-- The bytes that the parts of a string denote. A surrogate has to be part of a pair. -/
def Piece.join? : List Piece → Option Bytes
  | [] => some []
  | .byte b :: r => (Piece.join? r).map (b :: ·)
  | .unit u :: r =>
    if u < 0xD800 ∨ 0xE000 ≤ u then
      (Piece.join? r).map (Utf8.encodeChar (Char.ofNat u) ++ ·)
    else
      match r with
      | .unit v :: r =>
        if u < 0xDC00 ∧ 0xDC00 ≤ v ∧ v < 0xE000 then
          (Piece.join? r).map
            (Utf8.encodeChar (Char.ofNat (0x10000 + (u - 0xD800) * 0x400 + (v - 0xDC00))) ++ ·)
        else none
      | _ => none

/-- The text that the parts of a string denote. -/
def Piece.text? (ps : List Piece) : Option String := (Piece.join? ps).bind Utf8.decode

/-- The value of a string with the given parts. -/
def Piece.value (ps : List Piece) : Value :=
  match Piece.text? ps with
  | some s => .text s
  | none => .brokenText

/-! ### Values -/

/-- Reads the quote that starts a string, and the string. -/
def parseKey? (s : Bytes) : Option (Option String × Bytes) := do
  let s ← dropWord? [ascii '"'] s
  let (ps, s) ← scanString? s
  return (Piece.text? ps, s)

/-- Reads a word that denotes a value. -/
def parseWord? (s : Bytes) : Option (Value × Bytes) :=
  ((dropWord? ("null".toList.map ascii) s).map (Value.null, ·)).or <|
  ((dropWord? ("true".toList.map ascii) s).map (Value.bool true, ·)).or <|
  (dropWord? ("false".toList.map ascii) s).map (Value.bool false, ·)

mutual

/-- Reads a value. -/
def parseValue? : Nat → Bytes → Option (Value × Bytes)
  | 0, _ => none
  | fuel + 1, s =>
    match skipBlanks s with
    | [] => none
    | b :: r =>
      if b = ascii '"' then (scanString? r).map fun p => (Piece.value p.1, p.2)
      else if b = ascii '[' then
        match dropWord? [ascii ']'] (skipBlanks r) with
        | some r => some (.array [], r)
        | none => (parseItems? fuel r).map fun p => (.array p.1, p.2)
      else if b = ascii '\x7b' then
        match dropWord? [ascii '\x7d'] (skipBlanks r) with
        | some r => some (.object [], r)
        | none => (parseFields? fuel r).map fun p => (.object p.1, p.2)
      else (parseWord? (b :: r)).or (parseNumeral? (b :: r))

/-- Reads the items of an array, of which there is at least one, and the bracket after them. -/
def parseItems? : Nat → Bytes → Option (List Value × Bytes)
  | 0, _ => none
  | fuel + 1, s => do
    let (v, s) ← parseValue? fuel s
    match skipBlanks s with
    | [] => none
    | b :: r =>
      if b = ascii ']' then return ([v], r)
      else if b = ascii ',' then
        let (vs, r) ← parseItems? fuel r
        return (v :: vs, r)
      else none

/-- Reads the fields of an object, of which there is at least one, and the brace after them. -/
def parseFields? : Nat → Bytes → Option (List (Option String × Value) × Bytes)
  | 0, _ => none
  | fuel + 1, s => do
    let (key, s) ← parseKey? (skipBlanks s)
    let s ← dropWord? [ascii ':'] (skipBlanks s)
    let (v, s) ← parseValue? fuel s
    match skipBlanks s with
    | [] => none
    | b :: r =>
      if b = ascii '\x7d' then return ([(key, v)], r)
      else if b = ascii ',' then
        let (fs, r) ← parseFields? fuel r
        return ((key, v) :: fs, r)
      else none

end

/-- Reads a JSON text. -/
def Value.parse? (s : Bytes) : Option Value := do
  let (v, s) ← parseValue? (2 * s.length + 1) s
  guard (skipBlanks s).isEmpty
  return v

end Raft.Json
