import LinearProgram.Context
import LinearProgram.Document
import LinearProgram.Object
import LinearProgram.Text.Blank
import LinearProgram.Text.Digit

/-!
# Parameter tables

Parameters are read from a JSON object. Overrides address them by dotted paths, through keys of
tables and positions of lists, and create missing tables. They are made in place, on data with
identity (`Object`). `asArrays` turns flat lists of numbers into arrays of the host.
-/

namespace LinearProgram.Parameters

def refuse {α : Type} (fault : ParameterFault) : Except Error α := raise (.parameters fault)

/-- Read a parameter table from text. -/
def parse (text : String) : Except Error Entries :=
  match Json.parse text with
  | .ok (.table entries) => .ok entries
  | .ok _ => refuse .topLevel
  | .error e =>
    match e.limit? with
    | some reason => breakDown (.malformed reason)
    | none => refuse (.unreadable e)

/-- An override `path=value`. The value is JSON if it can be read as such, else plain text. -/
def parseOverride (text : String) : Except Error (String × Value) :=
  let cs := text.toList
  let path := Blank.strip (String.ofList (cs.takeWhile (· ≠ '=')))
  match cs.dropWhile (· ≠ '=') with
  | [] => refuse (.overrideForm text)
  | _ :: raw =>
    if path.isEmpty then refuse (.overrideForm text)
    else
      let raw := String.ofList raw
      match Json.parse raw with
      | .ok value => .ok (path, value)
      | .error e =>
        match e.limit? with
        | some reason => breakDown (.malformed reason)
        | none => .ok (path, .str (Blank.strip raw))

/-- Whether a segment is written in digits only. -/
def isPosition (part : String) : Bool := !part.isEmpty && part.all Digit.isDigit

/-- The position that digits stand for; not every digit character has a value. -/
def position (part : String) : Except Error Nat :=
  match Digit.natural? part.toList with
  | some n => .ok n
  | none =>
    breakDown (.malformed ("invalid literal for int() with base 10: " ++ Quoted.quote part))

/-- Where the part stands that a segment leads to: in a list at a position, in a table under a key,
or behind all parts if there is no such key. -/
def locate (path part : String) (isLast isTable : Bool) (parts : List (Value × Object)) :
    Except Error Nat :=
  if isTable then pure (parts.findIdx fun entry => entry.1.equal (.str part))
  else if isPosition part then do
    let n ← position part
    if n < parts.length then pure n else breakDown .outOfRange
  else refuse (if isLast then .notContainer path else .notAddressable path part)

/-- Put `new` at the end of a path that goes on from `here`, an object within `root`. Missing tables
on the way are made, with numbers from `next` on. -/
def assign (path : String) (new : Object) :
    List String → Nat → Object → Object → Except Error Object
  | [], _, _, _ => .ok new
  | part :: rest, _, .plain _ _, _ =>
    refuse (if rest.isEmpty then .notContainer path else .notAddressable path part)
  | part :: rest, next, .node id isTable parts, root => do
    let n ← locate path part rest.isEmpty isTable parts
    let put x := Object.replace id (.node id isTable (Object.setAt (.str part) x n parts)) root
    if rest.isEmpty then pure (put new)
    else
      match parts[n]? with
      | some (_, inner) => assign path new rest next inner root
      | none =>
        let made := .node next true []
        assign path new rest (next + 1) made (put made)

/-- One override, made in place: what is held in several places changes in all of them. -/
def override (root : Object) (path : String) (value : Value) : Except Error Object :=
  let (new, next) := Object.label root.free value
  assign path new (path.splitOn ".") next root root

/-- Apply overrides one after the other. -/
def applyOverrides (base : Object) (overrides : List (String × Value)) : Except Error Object :=
  overrides.foldlM (fun root entry => override root entry.1 entry.2) base

/-- The numbers of a list that holds plain numbers only. -/
def plainNumbers? (items : List Value) : Option (List Number) :=
  items.mapM fun
    | .number (.bool _) => none
    | .number x => some x
    | .cell (.float x) => some (.float x)
    | _ => none

mutual

/-- Turn the flat numeric lists of a table, and of the tables in it, into arrays. -/
def asArrays (host : Host) : List (Value × Value) → List (Value × Value)
  | [] => []
  | (key, value) :: rest => (key, asArray host value) :: asArrays host rest

def asArray (host : Host) : Value → Value
  | .table entries => .table (asArrays host entries)
  | .list items =>
    match plainNumbers? items with
    | some (x :: rest) => host.arrayOf (x :: rest)
    | _ => .list items
  | value => value

end

end LinearProgram.Parameters
