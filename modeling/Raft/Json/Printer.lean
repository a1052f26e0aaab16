import Raft.Json.Parser

/-!
# Writing JSON texts

`Value.render` writes a value without blanks, `Value.renderPretty` on several lines with two
blanks for each level. A string is written as it is, but for quotes, backslashes and control
characters. The parts of a text that a `Value` says nothing about are written as some part of
that kind, so a value reads back as itself.
-/

namespace Raft.Json

/-- The digits of a number. -/
def decimal (n : Nat) : Bytes := (Nat.toDigits 10 n).map ascii

/-- The bytes of a word. -/
def word (s : String) : Bytes := s.toList.map ascii

/-- A hexadecimal digit. -/
def hexDigit (n : Nat) : UInt8 := ascii (Nat.digitChar n)

/-- How a byte is written inside a string. -/
def escape (b : UInt8) : Bytes :=
  if b = ascii '"' ∨ b = ascii '\\' then [ascii '\\', b]
  else if 0x20 ≤ b.toNat then [b]
  else if b = 0x08 then word "\\b"
  else if b = 0x0C then word "\\f"
  else if b = 0x0A then word "\\n"
  else if b = 0x0D then word "\\r"
  else if b = 0x09 then word "\\t"
  else word "\\u00" ++ [hexDigit (b.toNat / 16), hexDigit (b.toNat % 16)]

/-- A quoted text. -/
def quoted (s : String) : Bytes :=
  [ascii '"'] ++ (Utf8.encode s).flatMap escape ++ [ascii '"']

/-- A string that denotes no text. -/
def brokenString : Bytes := word "\"\\ud800\""

/-- The key of a field, with the colon after it. -/
def renderKey : Option String → Bytes
  | some s => quoted s
  | none => brokenString

mutual

/-- Writes a value without blanks. -/
def Value.render : Value → Bytes
  | .null => word "null"
  | .bool true => word "true"
  | .bool false => word "false"
  | .natural n => decimal n
  | .otherNumeral => word "-0"
  | .text s => quoted s
  | .brokenText => brokenString
  | .array items => [ascii '['] ++ renderItems items ++ [ascii ']']
  | .object fields => [ascii '\x7b'] ++ renderFields fields ++ [ascii '\x7d']

/-- Writes the items of an array. -/
def renderItems : List Value → Bytes
  | [] => []
  | [v] => v.render
  | v :: rest => v.render ++ [ascii ','] ++ renderItems rest

/-- Writes the fields of an object. -/
def renderFields : List (Option String × Value) → Bytes
  | [] => []
  | [(key, v)] => renderKey key ++ [ascii ':'] ++ v.render
  | (key, v) :: rest => renderKey key ++ [ascii ':'] ++ v.render ++ [ascii ','] ++ renderFields rest

end

/-- The start of a line at some level. -/
def newline (level : Nat) : Bytes := 0x0A :: List.replicate (2 * level) 0x20

mutual

/-- Writes a value on several lines, from some level on. -/
def Value.renderAt (level : Nat) : Value → Bytes
  | .array (v :: rest) =>
    [ascii '['] ++ renderItemsAt (level + 1) (v :: rest) ++ newline level ++ [ascii ']']
  | .object (f :: rest) =>
    [ascii '\x7b'] ++ renderFieldsAt (level + 1) (f :: rest) ++ newline level ++ [ascii '\x7d']
  | .null => Value.null.render
  | .bool b => (Value.bool b).render
  | .natural n => decimal n
  | .otherNumeral => Value.otherNumeral.render
  | .text s => quoted s
  | .brokenText => brokenString
  | .array [] => word "[]"
  | .object [] => [ascii '\x7b', ascii '\x7d']

/-- Writes the items of an array on lines of their own. -/
def renderItemsAt (level : Nat) : List Value → Bytes
  | [] => []
  | [v] => newline level ++ v.renderAt level
  | v :: rest => newline level ++ v.renderAt level ++ [ascii ','] ++ renderItemsAt level rest

/-- Writes the fields of an object on lines of their own. -/
def renderFieldsAt (level : Nat) : List (Option String × Value) → Bytes
  | [] => []
  | [(key, v)] => newline level ++ renderKey key ++ word ": " ++ v.renderAt level
  | (key, v) :: rest =>
    newline level ++ renderKey key ++ word ": " ++ v.renderAt level ++ [ascii ','] ++
      renderFieldsAt level rest

end

/-- Writes a value on several lines. -/
def Value.renderPretty (v : Value) : Bytes := v.renderAt 0

end Raft.Json
