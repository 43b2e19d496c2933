import LinearProgram.Text.Quoted
import LinearProgram.Value.Basic

/-!
# Written values

`Value.quoted` writes a value the way messages show it, with strings in quotes; `Value.text` writes
a string bare and, objects of the host apart, everything else as `quoted` does.
-/

namespace LinearProgram

namespace Value

def commas (parts : List String) : String := ", ".intercalate parts

/-- A tuple of one item keeps its comma. -/
def tupleText : List String → String
  | [part] => "(" ++ part ++ ",)"
  | parts => "(" ++ commas parts ++ ")"

def cellText (x : Number) : String :=
  match x with
  | .bool _ => "np." ++ x.text ++ "_"
  | .int n => (if n < Int.pow 2 63 then "np.int64(" else "np.uint64(") ++ x.text ++ ")"
  | .float _ => "np.float64(" ++ x.text ++ ")"

mutual

/-- The written form of a value, texts in quotes. -/
def quoted : Value → String
  | none => "None"
  | number x => x.text
  | str s => Quoted.quote s
  | list items => "[" ++ commas (quotedItems items) ++ "]"
  | tuple items => tupleText (quotedItems items)
  | table entries => "\x7b" ++ commas (quotedEntries entries) ++ "\x7d"
  | range start stop step =>
    "range(" ++ (Number.int start).text ++ ", " ++ (Number.int stop).text
      ++ (if step = 1 then "" else ", " ++ (Number.int step).text) ++ ")"
  | set items =>
    if items.isEmpty then "set()" else "\x7b" ++ commas (quotedItems items) ++ "\x7d"
  | foreign view _ _ => view.quoted
  | cell x => cellText x
  | record fields => "namespace(" ++ commas (quotedFields fields) ++ ")"

def quotedItems : List Value → List String
  | [] => []
  | item :: rest => quoted item :: quotedItems rest

def quotedEntries : List (Value × Value) → List String
  | [] => []
  | (key, value) :: rest => (quoted key ++ ": " ++ quoted value) :: quotedEntries rest

def quotedFields : List (String × Value) → List String
  | [] => []
  | (name, value) :: rest => (name ++ "=" ++ quoted value) :: quotedFields rest

end

/-- A value as plain text: a string stands bare. -/
def text : Value → String
  | str s => s
  | cell x => x.text
  | foreign view _ _ => view.text
  | v => v.quoted

def tupleQuoted (items : List Value) : String := tupleText (items.map quoted)

end Value

end LinearProgram
