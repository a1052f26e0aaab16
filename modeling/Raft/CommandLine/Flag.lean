/-!
# Flags and help texts

A `Flag` describes an option that takes a value. The help text of a command is laid out from the
descriptions: flags and their explanations in two columns, or each explanation on a line of its
own when the first column would be too wide for that.
-/

namespace Raft.CommandLine

/-- An option that takes a value. -/
structure Flag where
  long : String
  short : Option Char := none
  /-- What the help text calls the value. -/
  placeholder : String
  about : String
  default : String
  /-- The admitted values, if they are listed. -/
  choices : List String := []

/-- A line of a help text: what to write, and what it does. -/
structure HelpItem where
  short : Option Char := none
  spelling : String
  about : String

/-- The item of a flag. -/
def Flag.helpItem (f : Flag) : HelpItem where
  short := f.short
  spelling := s!"--{f.long} <{f.placeholder}>"
  about :=
    let choices := ", ".intercalate f.choices
    let values := if f.choices.isEmpty then "" else s!" [possible values: {choices}]"
    s!"{f.about} [default: {f.default}]" ++ values

/-- The items that every command has. -/
def commonItems : List HelpItem :=
  [{ short := some 'h', spelling := "--help", about := "Print help" },
    { short := some 'V', spelling := "--version", about := "Print version" }]

/-- A text filled up with blanks to a width. -/
def padRight (width : Nat) (s : String) : String :=
  s ++ String.ofList (List.replicate (width - s.length) ' ')

/-- The width of the longest first column. -/
def columnWidth (items : List HelpItem) : Nat :=
  items.foldl (fun w i => max w i.spelling.length) 0

/-- The width of a help text. -/
def lineWidth : Nat := 100

/-- Whether the explanations go on lines of their own: the flags take more than two fifths of the
line, and some explanation does not fit into the rest. -/
def needsOwnLines (items : List HelpItem) : Bool :=
  let taken := columnWidth items + 12
  decide (2 * lineWidth < 5 * taken) &&
    items.any fun i => decide (lineWidth < taken + i.about.length)

/-- The part of an item before its spelling. -/
def HelpItem.shortColumn (i : HelpItem) : String :=
  match i.short with
  | some c => s!"  -{c}, "
  | none => "      "

/-- The options section of a help text. -/
def optionsSection (items : List HelpItem) : String :=
  let width := columnWidth items
  let line (i : HelpItem) :=
    if needsOwnLines items then i.shortColumn ++ i.spelling ++ "\n          " ++ i.about ++ "\n"
    else i.shortColumn ++ padRight width i.spelling ++ "  " ++ i.about ++ "\n"
  "Options:\n" ++ String.join (items.map line)

end Raft.CommandLine
