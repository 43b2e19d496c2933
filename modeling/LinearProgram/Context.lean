import LinearProgram.Host

/-!
# Names in scope, and lookups

An evaluation reads the names bound by generators, which win, and the parameters, in their host.
`Value.lookup` takes one step into a container. A number key also matches its text in a table,
because the keys of a JSON object are always text.
-/

namespace LinearProgram

/-- Names with their values, in the order in which they were first put. -/
abbrev Scope := List (String × Value)

namespace Scope

/-- The value of a name. -/
def get? (scope : Scope) (name : String) : Option Value :=
  (scope.find? fun entry => entry.1 == name).map (·.2)

def contains (scope : Scope) (name : String) : Bool := scope.any fun entry => entry.1 == name

/-- Put a value under a name; a name that is already there keeps its place. -/
def put : Scope → String → Value → Scope
  | [], name, value => [(name, value)]
  | entry :: rest, name, value =>
    if entry.1 == name then (name, value) :: rest else entry :: put rest name value

def names (scope : Scope) : List String := scope.map (·.1)

/-- The entries of a table whose keys are text. -/
def ofEntries (entries : Entries) : Scope :=
  entries.filterMap fun entry => entry.1.str?.map (·, entry.2)

end Scope

/-- The parameters of a model, and the host that they live in. -/
structure Parameters where
  table : Scope := []
  host : Host := .bare
  deriving Inhabited

/-- What an evaluation may read. -/
structure Context where
  bindings : Scope := []
  parameters : Parameters := {}
  deriving Inhabited

namespace Context

/-- A context with one more name bound. -/
def bind (context : Context) (name : String) (value : Value) : Context :=
  { context with bindings := context.bindings.put name value }

/-- The value of a bare name: a bound one first, then a parameter. -/
def resolve (context : Context) (name : String) : Except Error Value :=
  match context.bindings.get? name with
  | some value => .ok value.normalize
  | none =>
    match context.parameters.table.get? name with
    | some value => .ok value.normalize
    | none => raise (.unbound name context.bindings.names)

end Context

namespace Value

/-- The parts of a number that can be asked for by name. -/
def numberPart? (x : Number) (name : String) : Option Value :=
  match x, name with
  | .float _, "real" => some (number x)
  | .float _, "imag" => some (float 0.0)
  | .float _, _ => Option.none
  | _, "real" | _, "numerator" => some (int (x.toInt?.getD 0))
  | _, "imag" => some (int 0)
  | _, "denominator" => some (int 1)
  | _, _ => Option.none

/-- The fields of a record, and the parts of a number. -/
def part? (value : Value) (name : String) : Option Value :=
  match value with
  | record fields => (fields.find? fun entry => entry.1 == name).map (·.2)
  | number x | cell x => numberPart? x name
  | _ => Option.none

/-- What a value has under a name: a part of its own, or an attribute that the host gives it. -/
def attribute? (host : Host) (value : Value) (name : String) : Option Value :=
  (value.part? name).or (host.attribute? value name)

/-- The length of a sequence. -/
def length? : Value → Option Nat
  | list items | tuple items | foreign _ (list items) _ => some items.length
  | range start stop step => some (rangeLength start stop step)
  | _ => Option.none

/-- The item of a sequence at a position. -/
def item? : Value → Nat → Option Value
  | list items, n | tuple items, n | foreign _ (list items) _, n => items[n]?
  | range start stop step, n =>
    if n < rangeLength start stop step then some (int (start + step * Int.ofNat n))
    else Option.none
  | _, _ => Option.none

/-- The position a key stands for; a truth value is none. -/
def position? : Value → Option Int
  | number (.int n) | cell (.int n) => some n
  | _ => Option.none

/-- The value under a key, or under its text. -/
def lookupTable (entries : Entries) (key : Value) : Except Error Value :=
  if !key.isKey then breakDown .unsupported
  else
    match entries.get? key with
    | some value => .ok value.normalize
    | Option.none =>
      match key.str?, entries.named? key.text with
      | Option.none, some value => .ok value.normalize
      | _, _ => raise (.keyNotFound key (.table (entries.map (·.1))))

/-- The item at a position. -/
def lookupPosition (container : Value) (length : Nat) (key : Value) : Except Error Value :=
  match key.position? with
  | Option.none => raise (.keyNotFound key .positions)
  | some n =>
    if maxLength < length then breakDown .overflow
    else
      match (if n < 0 then Option.none else container.item? n.toNat) with
      | some value => .ok value.normalize
      | Option.none => raise (.keyNotFound key (.sequence length))

/-- One step into a container: by key into a table, by position into a sequence, and by name into
any other value if the step was written with a dot. -/
def lookup (host : Host) (container key : Value) (dot : Bool) : Except Error Value :=
  match container with
  | table entries | foreign _ (table entries) _ => lookupTable entries key
  | _ =>
    match container.length? with
    | some length => lookupPosition container length key
    | Option.none =>
      match (if dot then key.str?.bind (container.attribute? host) else Option.none) with
      | some value => .ok value.normalize
      | Option.none => raise (.keyNotFound key (.other container))

end Value

end LinearProgram
