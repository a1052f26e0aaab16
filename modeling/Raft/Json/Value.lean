import Raft.Ident

/-!
# JSON values

A `Value` is what a JSON text says, as far as this library reads it. Numerals other than plain
natural numbers occur in texts but never in what the library means by them, and neither do
strings that denote no text, such as one with half of a surrogate pair. Such a part may still be
skipped over, so each has a constructor, but nothing is kept of what it says.
-/

namespace Raft.Json

/-- What a JSON text says. The key of a field is `none` if it denotes no text. -/
inductive Value
  | null
  | bool (b : Bool)
  | natural (n : Nat)
  /-- A numeral with a sign, a fraction or an exponent. -/
  | otherNumeral
  | text (s : String)
  /-- A string that denotes no text. -/
  | brokenText
  | array (items : List Value)
  | object (fields : List (Option String × Value))

namespace Value

instance : Inhabited Value := ⟨null⟩

/-- A list of values. -/
def list {α : Type} (f : α → Value) (xs : List α) : Value := array (xs.map f)

/-- An absent value is null. -/
def option {α : Type} (f : α → Value) : Option α → Value
  | none => null
  | some x => f x

/-- A record with the given fields. -/
def record (fields : List (String × Value)) : Value :=
  object (fields.map fun f => (some f.1, f.2))

/-- A record with a single field. -/
def tagged (tag : String) (body : Value) : Value := record [(tag, body)]

end Value

end Raft.Json
