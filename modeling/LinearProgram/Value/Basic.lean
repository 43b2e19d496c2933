import LinearProgram.Number.Basic

/-!
# Data values

Parameters, bindings, literals and index values are numbers, text, sequences or tables, whose
entries stand in the order in which their keys were first put. Keys are compared by value: `1`,
`1.0` and the truth value address one entry. Objects of the host stand for what can be observed of
them: how they are written, the plain value they act as, and what they list.
-/

namespace LinearProgram

/-- How an object of the host shows itself. -/
structure View where
  /-- The word for its type. -/
  word : String
  text : String
  /-- The text that messages show. -/
  quoted : String
  /-- A note of the host. -/
  tag : String := ""
  /-- Whether it can be a key, if what it acts as can. -/
  isKey : Bool := false
  /-- Whether it has one axis. -/
  isFlat : Bool := false
  /-- Whether it counts as given. -/
  truthy : Bool := true
  deriving Repr, DecidableEq, Inhabited

/-- Data. -/
inductive Value where
  | none
  | number (x : Number)
  | str (s : String)
  | list (items : List Value)
  | tuple (items : List Value)
  /-- A table, in the order in which its keys were first put. -/
  | table (entries : List (Value × Value))
  /-- The integers from `start`, by `step`, short of `stop`. -/
  | range (start stop step : Int)
  | set (items : List Value)
  /-- An object of the host that acts as the value `core` and lists its items as `listed`. -/
  | foreign (view : View) (core : Value) (listed : List Value)
  /-- A number taken out of a numeric array. -/
  | cell (x : Number)
  /-- An object that is addressed by attribute names only. -/
  | record (fields : List (String × Value))
  deriving Inhabited

namespace Value

def int (n : Int) : Value := number (.int n)

def bool (b : Bool) : Value := number (.bool b)

def float (x : Float) : Value := number (.float x)

/-- A number taken out of an array is a plain number from here on. -/
def normalize : Value → Value
  | cell x => number x
  | v => v

/-- Whether a value is an object of the host. -/
def isForeign : Value → Bool
  | foreign _ _ _ => true
  | _ => false

/-- The number a value is, if it is one; an array element is not. -/
def number? : Value → Option Number
  | number x => some x
  | _ => Option.none

def str? : Value → Option String
  | str s => some s
  | _ => Option.none

/-- The integers of a range, counted from the ends. -/
def rangeLength (start stop step : Int) : Nat :=
  if 0 < step then ((stop - start + step - 1) / step).toNat
  else if step < 0 then ((start - stop - step - 1) / (-step)).toNat
  else 0

/-- The integers of a range. -/
def rangeItems (start stop step : Int) : List Value :=
  (List.range (rangeLength start stop step)).map fun k => int (start + step * Int.ofNat k)

/-- The greatest length of a sequence: that of a signed 64-bit number. -/
def maxLength : Nat := Nat.pow 2 63 - 1

/-- More items than this do not fit into memory. -/
def maxItems : Nat := Nat.pow 2 33

/-- The name of a value's type. -/
def typeWord : Value → String
  | none => "NoneType"
  | number x => x.typeWord
  | str _ => "str"
  | list _ => "list"
  | tuple _ => "tuple"
  | table _ => "dict"
  | range _ _ _ => "range"
  | set _ => "set"
  | foreign view _ _ => view.word
  | cell (.bool _) => "bool"
  | cell (.int _) => "int64"
  | cell (.float _) => "float64"
  | record _ => "SimpleNamespace"

/-- Whether both values are NaN. -/
def bothNaN : Value → Value → Bool
  | number x, number y | cell x, cell y => x.isNaN && y.isNaN
  | _, _ => false

mutual

/-- Equality by value. Sequences of different kinds differ, and tables are equal when they hold
equal values under equal keys, whatever the order. NaN differs from itself, but as an item it is one
and the same item everywhere. Objects of the host are equal if they show themselves alike. -/
def equal : Value → Value → Bool
  | none, none => true
  | number x, number y | number x, cell y | cell x, number y | cell x, cell y => x.equal y
  | str s, str t => s == t
  | list xs, list ys | tuple xs, tuple ys => equalItems xs ys
  | foreign v _ _, foreign w _ _ => v == w
  | table xs, table ys => xs.length == ys.length && equalEntries xs ys
  | range a b c, range d e f =>
    let n := rangeLength a b c
    n == rangeLength d e f && (n == 0 || (a == d && (n == 1 || c == f)))
  | set xs, set ys => xs.length == ys.length && includedItems xs ys
  | record xs, record ys => xs.length == ys.length && equalFields xs ys
  | _, _ => false
termination_by structural x => x

def equalItems : List Value → List Value → Bool
  | [], [] => true
  | x :: xs, y :: ys => (bothNaN x y || equal x y) && equalItems xs ys
  | _, _ => false
termination_by structural x => x

/-- Every item of the first list is equal to one of the second. -/
def includedItems : List Value → List Value → Bool
  | [], _ => true
  | x :: xs, ys => ys.any (fun y => bothNaN x y || equal x y) && includedItems xs ys
termination_by structural x => x

/-- Every entry of the first table has an equal key with an equal value in the second. -/
def equalEntries : List (Value × Value) → List (Value × Value) → Bool
  | [], _ => true
  | (key, value) :: rest, ys =>
    ys.any (fun y => equal key y.1 && (bothNaN value y.2 || equal value y.2))
      && equalEntries rest ys
termination_by structural x => x

def equalFields : List (String × Value) → List (String × Value) → Bool
  | [], _ => true
  | (name, value) :: rest, ys =>
    ys.any (fun y => name == y.1 && (bothNaN value y.2 || equal value y.2))
      && equalFields rest ys
termination_by structural x => x

end

/-- Whether two values are the same item of a sequence. -/
def same (x y : Value) : Bool := bothNaN x y || x.equal y

mutual

/-- Whether a value can be a key: everything but the values that can be changed in place. -/
def isKey : Value → Bool
  | none | number _ | str _ | range _ _ _ | cell _ => true
  | tuple items => areKeys items
  | foreign view core listed => view.isKey && isKey core && areKeys listed
  | list _ | table _ | set _ | record _ => false

def areKeys : List Value → Bool
  | [] => true
  | item :: rest => isKey item && areKeys rest

end

end Value

/-- The entries of a table, in the order in which their keys were first put. -/
abbrev Entries := List (Value × Value)

namespace Entries

/-- The value under a key. -/
def get? (entries : Entries) (key : Value) : Option Value :=
  (entries.find? fun entry => entry.1.equal key).map (·.2)

def contains (entries : Entries) (key : Value) : Bool := entries.any fun entry => entry.1.equal key

/-- Put a value under a key. A key that is already there keeps its place and its spelling. -/
def put : Entries → Value → Value → Entries
  | [], key, value => [(key, value)]
  | entry :: rest, key, value =>
    if entry.1.equal key then (entry.1, value) :: rest else entry :: put rest key value

/-- The value under a text. -/
def named? (entries : Entries) (name : String) : Option Value := get? entries (.str name)

/-- The names among the keys, in order. -/
def names (entries : Entries) : List String := entries.filterMap fun entry => entry.1.str?

end Entries

end LinearProgram
