import Raft.Json.Value

/-!
# Reading typed data off JSON values

The rules by which a value is read as a record or as one of several alternatives:

* a record is an object with a value for each of its fields, or a list of the fields' values in
  their order. In an object, other fields are skipped, a field may not come twice, and one that
  is optional may be missing;
* an alternative without contents is its name, or an object with the name as the only key and
  null as the value. One with contents is such an object with the contents as the value.

A number has to fit into a 64-bit word, or into a byte where bytes are meant.
-/

namespace Raft.Json.Value

/-- A number. -/
def natural? : Value → Option Nat
  | natural n => if n < wordLimit then some n else none
  | _ => none

/-- A byte. -/
def byte? : Value → Option UInt8
  | natural n => if n < 256 then some n.toUInt8 else none
  | _ => none

/-- A text. -/
def text? : Value → Option String
  | text s => some s
  | _ => none

/-- A truth value. -/
def bool? : Value → Option Bool
  | bool b => some b
  | _ => none

/-- A list. -/
def list? {α : Type} (read : Value → Option α) : Value → Option (List α)
  | array items => items.mapM read
  | _ => none

/-- Bytes. -/
def bytes? (v : Value) : Option Bytes := v.list? byte?

/-- The value of a field, if it is there. A field may not come twice. -/
def single? (fields : List (Option String × Value)) (name : String) : Option (Option Value) :=
  match fields.filter (·.1 == some name) with
  | [] => some none
  | [f] => some (some f.2)
  | _ => none

/-- The values of a record's fields. -/
def record? (names : List String) : Value → Option (List (Option Value))
  | object fields =>
    if fields.all (·.1.isSome) then names.mapM (single? fields) else none
  | array items => if items.length = names.length then some (items.map some) else none
  | _ => none

/-- The value of a field that has to be there. -/
def required {α : Type} (read : Value → Option α) (v : Option Value) : Option α := v.bind read

/-- A value that may be null. -/
def nullable {α : Type} (read : Value → Option α) : Value → Option (Option α)
  | null => some none
  | v => (read v).map some

/-- The value of a field that may be missing or null. -/
def optional {α : Type} (read : Value → Option α) : Option Value → Option (Option α)
  | none => some none
  | some v => nullable read v

/-- The name of an alternative, and its contents if there are any. -/
def alternative? : Value → Option (String × Option Value)
  | text s => some (s, none)
  | object [(some name, contents)] => some (name, some contents)
  | _ => none

/-- An alternative without contents stands alone, or with null as its contents. -/
def bare {α : Type} (x : α) : Option Value → Option α
  | none => some x
  | some null => some x
  | some _ => none

end Raft.Json.Value
