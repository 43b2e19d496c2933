import LinearProgram.Error

/-!
# Models

The variable instances, the constraints and the objective, in the order in which they came, with the
indexes that keep names unique: the index tuples of a family, the LP names, how far each counter
got, and which constraint statements were declared for which index values.
-/

namespace LinearProgram

/-- One declared variable. A bound that was not given is `none`. -/
structure Variable where
  key : VarKey
  kind : VariableKind
  lower : Option Number
  upper : Option Number
  name : String
  description : Value
  /-- Whether the compiler introduced the variable. -/
  auxiliary : Bool
  deriving Inhabited

namespace Variable

def rawName (v : Variable) : String := v.key.text

/-- The bounds in effect: a binary variable lies between 0 and 1, and a missing bound is infinite.
-/
def bounds (v : Variable) : Number × Number :=
  match v.kind with
  | .binary => (.int 0, .int 1)
  | _ => (v.lower.getD .negInfinity, v.upper.getD .infinity)

end Variable

/-- A row, as it was declared. -/
structure Constraint where
  name : String
  rawName : String
  lhs : Polynomial
  relation : Relation
  rhs : Polynomial
  description : Value
  deriving Inhabited

/-- A polynomial and which way to go. -/
structure Objective where
  polynomial : Polynomial
  direction : Direction
  deriving Inhabited

/-- The row label of the objective, which no constraint may have. -/
def Objective.label : String := "obj"

/-- The tables of a model. -/
structure Model where
  name : Value := .none
  columns : List Variable := []
  families : List (String × List (List Value)) := []
  constraints : List Constraint := []
  objective : Option Objective := none
  variableNames : List (String × VarKey) := []
  constraintNames : List (String × String) := []
  counters : List (String × Nat) := []
  declarations : List Value := []
  deriving Inhabited

namespace Model

/-- The variable with a key. -/
def declared? (m : Model) (key : VarKey) : Option Variable :=
  m.columns.find? fun v => v.key.equal key

/-- The index tuples of a family in the order of declaration; `none` if nothing declared it. -/
def family? (m : Model) (family : String) : Option (List (List Value)) :=
  (m.families.find? fun entry => entry.1 == family).map (·.2)

/-- Whether a family is declared. -/
def hasFamily (m : Model) (family : String) : Bool := (m.family? family).isSome

def indexTuples (m : Model) (family : String) : List (List Value) := (m.family? family).getD []

/-- The bounds in effect of an instance; an undeclared one is unbounded. -/
def variableBounds (m : Model) (key : VarKey) : Number × Number :=
  match m.declared? key with
  | some v => v.bounds
  | none => (.negInfinity, .infinity)

def variableNamed? (m : Model) (name : String) : Option VarKey :=
  (m.variableNames.find? fun entry => entry.1 == name).map (·.2)

/-- The readable name of the constraint that has an LP name. -/
def constraintNamed? (m : Model) (name : String) : Option String :=
  (m.constraintNames.find? fun entry => entry.1 == name).map (·.2)

/-- How often a counter was used. -/
def counter (m : Model) (name : String) : Nat :=
  ((m.counters.find? fun entry => entry.1 == name).map (·.2)).getD 0

end Model

/-- How large a model is. -/
structure Statistics where
  columns : Nat
  integer : Nat
  binary : Nat
  auxiliary : Nat
  constraints : Nat
  objective : Nat
  deriving Repr, DecidableEq, Inhabited

/-- Each figure under its name, in the order of reports. -/
def Statistics.entries (s : Statistics) : List (String × Nat) :=
  [("variables", s.columns), ("integer", s.integer), ("binary", s.binary),
   ("auxiliary", s.auxiliary), ("constraints", s.constraints), ("objective", s.objective)]

/-- Count a model. -/
def Model.statistics (m : Model) : Statistics where
  columns := m.columns.length
  integer := m.columns.countP fun v => v.kind == .integer
  binary := m.columns.countP fun v => v.kind == .binary
  auxiliary := m.columns.countP (·.auxiliary)
  constraints := m.constraints.length
  objective := if m.objective.isSome then 1 else 0

end LinearProgram
