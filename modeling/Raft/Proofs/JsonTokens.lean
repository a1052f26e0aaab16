import Raft.Json.Printer

/-!
# Strings and numerals of JSON texts

What is written for the parts of a JSON text that hold no other values is read back.

* `Utf8.decode_encode`, text as bytes;
* `parseKey?_renderKey`, strings;
* `parseNumeral?_decimal`, natural numbers.
-/

namespace Raft.Json

/-! ### Text as bytes -/

namespace Utf8

@[simp] theorem toNat_toUInt8_of_lt {n : Nat} (h : n < 256) : n.toUInt8.toNat = n :=
  UInt8.toNat_ofNat_of_lt' h

theorem charFrom?_toNat {c : Char} {least : Nat} (h : least ≤ c.toNat) :
    charFrom? least c.toNat = some c := by
  rw [charFrom?, if_pos ⟨h, c.valid⟩, Char.ofNat_toNat]

/-- The first byte of a character leaves the others to be read. -/
theorem decodeChar?_encodeChar (c : Char) (rest : Bytes) :
    ∃ a tail, encodeChar c ++ rest = a :: (tail ++ rest) ∧
      decodeChar? a (tail ++ rest) = some (c, rest) := by
  have hlt : c.toNat < 0x110000 := by
    have := c.valid
    unfold UInt32.isValidChar Nat.isValidChar at this
    show c.val.toNat < _
    omega
  have htail (k : Nat) : isTail (0x80 + k % 64).toUInt8 = true := by
    have : (0x80 + k % 64).toUInt8.toNat = 0x80 + k % 64 := toNat_toUInt8_of_lt (by omega)
    simp only [isTail, this, decide_eq_true_eq]
    omega
  have hlow (k : Nat) : (0x80 + k % 64).toUInt8.toNat % 64 = k % 64 := by
    rw [toNat_toUInt8_of_lt (by omega)]
    omega
  -- one case for each number of bytes, and the bits of the bytes put together give the number back
  unfold encodeChar
  by_cases h₁ : c.toNat < 0x80
  · refine ⟨c.toNat.toUInt8, [], by rw [if_pos h₁]; rfl, ?_⟩
    have := toNat_toUInt8_of_lt (n := c.toNat) (by omega)
    simp only [decodeChar?.eq_def, this, if_pos h₁, Char.ofNat_toNat, List.nil_append]
  by_cases h₂ : c.toNat < 0x800
  · refine ⟨(0xC0 + c.toNat / 64).toUInt8, [(0x80 + c.toNat % 64).toUInt8],
      by rw [if_neg h₁, if_pos h₂]; rfl, ?_⟩
    have hfirst := toNat_toUInt8_of_lt (n := 0xC0 + c.toNat / 64) (by omega)
    have hcode : (0xC0 + c.toNat / 64) % 32 * 64 + c.toNat % 64 = c.toNat := by omega
    simp only [decodeChar?, List.cons_append, List.nil_append, hfirst, htail, hlow, hcode]
    rw [if_neg (by omega), if_neg (by simp), if_pos (by omega), charFrom?_toNat (by omega)]
    rfl
  by_cases h₃ : c.toNat < 0x10000
  · refine ⟨(0xE0 + c.toNat / 4096).toUInt8,
      [(0x80 + c.toNat / 64 % 64).toUInt8, (0x80 + c.toNat % 64).toUInt8],
      by rw [if_neg h₁, if_neg h₂, if_pos h₃]; rfl, ?_⟩
    have hfirst := toNat_toUInt8_of_lt (n := 0xE0 + c.toNat / 4096) (by omega)
    have hcode : (0xE0 + c.toNat / 4096) % 16 * 4096 + c.toNat / 64 % 64 * 64 + c.toNat % 64 =
        c.toNat := by omega
    simp only [decodeChar?, List.cons_append, List.nil_append, hfirst, htail, hlow, hcode]
    rw [if_neg (by omega), if_neg (by simp), if_neg (by omega), if_neg (by simp),
      if_pos (by omega), charFrom?_toNat (by omega)]
    rfl
  · refine ⟨(0xF0 + c.toNat / 262144).toUInt8,
      [(0x80 + c.toNat / 4096 % 64).toUInt8, (0x80 + c.toNat / 64 % 64).toUInt8,
        (0x80 + c.toNat % 64).toUInt8],
      by rw [if_neg h₁, if_neg h₂, if_neg h₃]; rfl, ?_⟩
    have hfirst := toNat_toUInt8_of_lt (n := 0xF0 + c.toNat / 262144) (by omega)
    have hcode : (0xF0 + c.toNat / 262144) % 8 * 262144 + c.toNat / 4096 % 64 * 4096 +
        c.toNat / 64 % 64 * 64 + c.toNat % 64 = c.toNat := by omega
    simp only [decodeChar?, List.cons_append, List.nil_append, hfirst, htail, hlow, hcode]
    rw [if_neg (by omega), if_neg (by simp), if_neg (by omega), if_neg (by simp),
      if_neg (by omega), if_pos ⟨trivial, by omega⟩, charFrom?_toNat (by omega)]
    rfl

theorem decodeWithin_encode (cs : List Char) {budget : Nat}
    (h : (cs.flatMap encodeChar).length ≤ budget) :
    decodeWithin budget (cs.flatMap encodeChar) = some cs := by
  induction cs generalizing budget with
  | nil => cases budget <;> rfl
  | cons c cs ih =>
    obtain ⟨a, tail, heq, hc⟩ := decodeChar?_encodeChar c (cs.flatMap encodeChar)
    rw [List.flatMap_cons, heq] at h ⊢
    rw [List.length_cons, List.length_append] at h
    obtain ⟨k, rfl⟩ : ∃ k, budget = k + 1 := ⟨budget - 1, by omega⟩
    simp [decodeWithin, hc, ih (show (cs.flatMap encodeChar).length ≤ k by omega)]

/-- A text is read back from its bytes. -/
theorem decode_encode (s : String) : decode (encode s) = some s := by
  rw [decode, encode, decodeWithin_encode _ (Nat.le_refl _)]
  exact congrArg some String.ofList_toList

end Utf8

/-! ### Strings -/

section Scan

variable {b e p : UInt8} {s : Bytes}

theorem scanString?_quote (s : Bytes) : scanString? (ascii '"' :: s) = some ([], s) := by
  rw [scanString?.eq_def]
  exact if_pos rfl

theorem scanString?_plain (hquote : b ≠ ascii '"') (hplain : 0x20 ≤ b.toNat)
    (hslash : b ≠ ascii '\\') :
    scanString? (b :: s) = (scanString? s).map fun q => (.byte b :: q.1, q.2) := by
  rw [scanString?.eq_def]
  simp only [if_neg hquote, if_neg (Nat.not_lt.2 hplain), if_neg hslash]
  cases scanString? s <;> rfl

theorem scanString?_short (hu : e ≠ ascii 'u') (he : shortEscape? e = some p) :
    scanString? (ascii '\\' :: e :: s) = (scanString? s).map fun q => (.byte p :: q.1, q.2) := by
  have hquote : ascii '\\' ≠ ascii '"' := by decide
  have hplain : ¬ (ascii '\\').toNat < 0x20 := by decide
  rw [scanString?.eq_def]
  simp only [if_neg hquote, if_neg hplain, if_true, if_neg hu, he]
  cases scanString? s <;> rfl

theorem scanString?_unit {h₁ h₂ h₃ h₄ : UInt8} {u : Nat} (hu : hexUnit? h₁ h₂ h₃ h₄ = some u) :
    scanString? (ascii '\\' :: ascii 'u' :: h₁ :: h₂ :: h₃ :: h₄ :: s) =
      (scanString? s).map fun q => (.unit u :: q.1, q.2) := by
  have hquote : ascii '\\' ≠ ascii '"' := by decide
  have hplain : ¬ (ascii '\\').toNat < 0x20 := by decide
  rw [scanString?.eq_def]
  simp only [if_neg hquote, if_neg hplain, if_true, hu]
  cases scanString? s <;> rfl

theorem join?_byte (b : UInt8) (ps : List Piece) :
    Piece.join? (.byte b :: ps) = (Piece.join? ps).map (b :: ·) := by
  rw [Piece.join?]

/-- A code unit that is a control character. -/
theorem join?_control (hb : b.toNat < 0x20) (ps : List Piece) :
    Piece.join? (.unit b.toNat :: ps) = (Piece.join? ps).map (b :: ·) := by
  have hencode : ∀ k < 32, Utf8.encodeChar (Char.ofNat k) = [k.toUInt8] := by decide
  rw [Piece.join?.eq_def]
  simp only [hencode b.toNat hb, show b.toNat < 0xD800 by omega, true_or, if_true]
  simp

end Scan

/-- What is written for a byte is read as one part of a string, which denotes this byte. -/
theorem scanString?_escape (b : UInt8) (s : Bytes) :
    ∃ p, scanString? (escape b ++ s) = (scanString? s).map (fun q => (p :: q.1, q.2)) ∧
      ∀ ps, Piece.join? (p :: ps) = (Piece.join? ps).map (b :: ·) := by
  have hunit : ∀ k < 32, hexUnit? (ascii '0') (ascii '0') (hexDigit (k / 16))
      (hexDigit (k % 16)) = some k := by decide
  unfold escape
  by_cases hquote : b = ascii '"' ∨ b = ascii '\\'
  · refine ⟨.byte b, ?_, join?_byte b⟩
    rw [if_pos hquote]
    rcases hquote with rfl | rfl <;> exact scanString?_short (by decide) (by decide)
  by_cases hplain : 0x20 ≤ b.toNat
  · refine ⟨.byte b, ?_, join?_byte b⟩
    rw [if_neg hquote, if_pos hplain]
    exact scanString?_plain (fun h => hquote (.inl h)) hplain fun h => hquote (.inr h)
  rw [if_neg hquote, if_neg hplain]
  by_cases hshort : b = 0x08 ∨ b = 0x0C ∨ b = 0x0A ∨ b = 0x0D ∨ b = 0x09
  · refine ⟨.byte b, ?_, join?_byte b⟩
    rcases hshort with rfl | rfl | rfl | rfl | rfl <;>
      exact scanString?_short (by decide) (by decide)
  · -- any other control character is written as the code unit of its number
    simp only [not_or] at hshort
    obtain ⟨h₁, h₂, h₃, h₄, h₅⟩ := hshort
    rw [if_neg h₁, if_neg h₂, if_neg h₃, if_neg h₄, if_neg h₅]
    exact ⟨.unit b.toNat, scanString?_unit (hunit b.toNat (by omega)), join?_control (by omega)⟩

/-- What is written for some bytes is read as parts of a string that denote these bytes. -/
theorem scanString?_flatMap_escape (bs rest : Bytes) :
    ∃ ps, scanString? (bs.flatMap escape ++ ascii '"' :: rest) = some (ps, rest) ∧
      Piece.join? ps = some bs := by
  induction bs with
  | nil => exact ⟨[], scanString?_quote rest, by rw [Piece.join?]⟩
  | cons b bs ih =>
    obtain ⟨ps, hscan, hjoin⟩ := ih
    obtain ⟨p, hp, hpjoin⟩ := scanString?_escape b (bs.flatMap escape ++ ascii '"' :: rest)
    refine ⟨p :: ps, ?_, ?_⟩
    · rw [List.flatMap_cons, List.append_assoc, hp, hscan]
      rfl
    · rw [hpjoin, hjoin]
      rfl

/-- A key is read back, and so is any other string. -/
theorem renderKey_append (key : Option String) (rest : Bytes) :
    ∃ body ps, renderKey key ++ rest = ascii '"' :: body ∧ scanString? body = some (ps, rest) ∧
      Piece.text? ps = key := by
  cases key with
  | none =>
    have hbroken : brokenString = [ascii '"', ascii '\\', ascii 'u', ascii 'd', ascii '8',
        ascii '0', ascii '0', ascii '"'] := by decide
    have hunit : hexUnit? (ascii 'd') (ascii '8') (ascii '0') (ascii '0') = some 0xD800 := by decide
    refine ⟨_, [.unit 0xD800], by rw [renderKey, hbroken]; rfl, ?_, ?_⟩
    · exact (scanString?_unit hunit).trans (congrArg _ (scanString?_quote rest))
    · rw [Piece.text?, Piece.join?.eq_def]
      rfl
  | some s =>
    obtain ⟨ps, hscan, hjoin⟩ := scanString?_flatMap_escape (Utf8.encode s) rest
    refine ⟨_, ps, by simp [renderKey, quoted], hscan, ?_⟩
    rw [Piece.text?, hjoin, Option.bind_some, Utf8.decode_encode]

theorem parseKey?_renderKey (key : Option String) (rest : Bytes) :
    parseKey? (renderKey key ++ rest) = some (key, rest) := by
  obtain ⟨body, ps, hbody, hscan, htext⟩ := renderKey_append key rest
  rw [hbody, parseKey?]
  simp [dropWord?, hscan, htext]

/-! ### Numerals -/

/-- Bytes that do not go on with a numeral. -/
def Delimited (s : Bytes) : Prop :=
  ∀ b ∈ s.head?, isDigit b = false ∧ b ≠ ascii '.' ∧ b ≠ ascii 'e' ∧ b ≠ ascii 'E'

theorem delimited_nil : Delimited [] := by simp [Delimited]

theorem delimited_cons {b : UInt8} (h : isDigit b = false ∧ b ≠ ascii '.' ∧ b ≠ ascii 'e' ∧
    b ≠ ascii 'E') (s : Bytes) : Delimited (b :: s) := by
  intro c hc
  obtain rfl : b = c := Option.some.inj hc
  exact h

theorem ne_of_isDigit {b c : UInt8} (hb : isDigit b = true) (hc : isDigit c = false) : b ≠ c := by
  rintro rfl
  exact Bool.noConfusion (hb.symm.trans hc)

theorem isDigit_ascii_digitChar : ∀ d < 10, isDigit (ascii d.digitChar) = true := by decide

theorem toNat_ascii_digitChar : ∀ d < 10, (ascii d.digitChar).toNat - 48 = d := by decide

theorem decimal_of_lt {n : Nat} (h : n < 10) : decimal n = [ascii n.digitChar] := by
  rw [decimal, Nat.toDigits_of_lt_base h]
  rfl

theorem decimal_of_le {n : Nat} (h : 10 ≤ n) :
    decimal n = decimal (n / 10) ++ [ascii (n % 10).digitChar] := by
  rw [decimal, Nat.toDigits_of_base_le (by decide) h, List.map_append]
  rfl

theorem isDigit_of_mem_decimal (n : Nat) : ∀ b ∈ decimal n, isDigit b = true := by
  induction n using Nat.strongRecOn with
  | ind n ih =>
    intro b hb
    by_cases h : n < 10
    · rw [decimal_of_lt h, List.mem_singleton] at hb
      rw [hb]
      exact isDigit_ascii_digitChar n h
    · rw [decimal_of_le (by omega), List.mem_append, List.mem_singleton] at hb
      rcases hb with hb | rfl
      · exact ih (n / 10) (by omega) b hb
      · exact isDigit_ascii_digitChar (n % 10) (by omega)

theorem ofDigits_decimal (n : Nat) : ofDigits (decimal n) = n := by
  induction n using Nat.strongRecOn with
  | ind n ih =>
    by_cases h : n < 10
    · rw [decimal_of_lt h]
      simp [ofDigits, toNat_ascii_digitChar n h]
    · have := ih (n / 10) (by omega)
      rw [decimal_of_le (by omega)]
      unfold ofDigits at this ⊢
      rw [List.foldl_append, this, List.foldl_cons, List.foldl_nil,
        toNat_ascii_digitChar _ (by omega)]
      omega

/-- Only the numeral of zero starts with the digit zero. -/
theorem decimal_head (n : Nat) : ∃ b ds, decimal n = b :: ds ∧ isDigit b = true ∧
    (b = ascii '0' → ds = [] ∧ n = 0) := by
  induction n using Nat.strongRecOn with
  | ind n ih =>
    by_cases h : n < 10
    · have hzero : ∀ d < 10, ascii d.digitChar = ascii '0' → d = 0 := by decide
      exact ⟨_, _, decimal_of_lt h, isDigit_ascii_digitChar n h, fun hb => ⟨rfl, hzero n h hb⟩⟩
    · obtain ⟨b, ds, heq, hb, hzero⟩ := ih (n / 10) (by omega)
      rw [decimal_of_le (by omega), heq]
      refine ⟨b, _, rfl, hb, fun h => ?_⟩
      have := (hzero h).2
      omega

theorem parseDigits?_append {ds rest : Bytes} (hne : ds ≠ []) (hds : ∀ b ∈ ds, isDigit b = true)
    (hrest : Delimited rest) : parseDigits? (ds ++ rest) = some (ds, rest) := by
  have htake : rest.takeWhile isDigit = [] := by
    cases rest with
    | nil => rfl
    | cons b rest => simp [(hrest b rfl).1]
  have hdrop : rest.dropWhile isDigit = rest := by
    cases rest with
    | nil => rfl
    | cons b rest => simp [(hrest b rfl).1]
  rw [parseDigits?, List.takeWhile_append_of_pos hds, List.dropWhile_append_of_pos hds, htake,
    hdrop, List.append_nil]
  simp [hne]

theorem parseUnsigned?_decimal (n : Nat) {rest : Bytes} (hrest : Delimited rest) :
    parseUnsigned? (decimal n ++ rest) = some (.natural n, rest) := by
  have hwhole : parseWhole? (decimal n ++ rest) = some (decimal n, rest) := by
    obtain ⟨b, ds, heq, -, hzero⟩ := decimal_head n
    by_cases h : b = ascii '0'
    · obtain ⟨rfl, -⟩ := hzero h
      simp [heq, parseWhole?, h]
    · rw [heq, List.cons_append, parseWhole?, if_neg h, ← List.cons_append, ← heq]
      exact parseDigits?_append (by simp [heq]) (isDigit_of_mem_decimal n) hrest
  have hfraction : skipFraction? rest = some (false, rest) := by
    cases rest with
    | nil => rfl
    | cons c rest => simp [skipFraction?, (hrest c rfl).2.1]
  have hexponent : skipExponent? rest = some (false, rest) := by
    cases rest with
    | nil => rfl
    | cons c rest => simp [skipExponent?, (hrest c rfl).2.2.1, (hrest c rfl).2.2.2]
  simp [parseUnsigned?, hwhole, hfraction, hexponent, ofDigits_decimal]

/-- A natural number is read back. -/
theorem parseNumeral?_decimal (n : Nat) {rest : Bytes} (hrest : Delimited rest) :
    parseNumeral? (decimal n ++ rest) = some (.natural n, rest) := by
  obtain ⟨b, ds, heq, hb, -⟩ := decimal_head n
  rw [heq, List.cons_append, parseNumeral?, if_neg (ne_of_isDigit hb (by decide)),
    ← List.cons_append, ← heq]
  exact parseUnsigned?_decimal n hrest

end Raft.Json
