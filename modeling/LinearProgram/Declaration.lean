import LinearProgram.Assembly
import LinearProgram.Model.Bound
import LinearProgram.Model.Name
import LinearProgram.Polynomial.Arithmetic

/-!
# Declarations

The operations that add to a model. They see to it that bounds fit kinds, that all instances of a
family have one arity and one kind, that no instance is declared twice, that LP names are unique,
and that there is one objective.
-/

namespace LinearProgram

/-- Left minus right, the form in which a constraint is judged and written. -/
def Constraint.difference (c : Constraint) : Except Error Polynomial := c.lhs.sub c.rhs

/-- Variables on the left, a single constant on the right. -/
def Constraint.normalized (c : Constraint) : Except Error (Polynomial × Number) := do
  let d ← c.difference
  pure (d.linearPart, d.constant.neg)

/-- Whether a number is so related to zero. -/
def Relation.holds (relation : Relation) (x : Number) : Bool :=
  match relation with
  | .equal => x.isZero
  | .atMost => x.lessEq (.int 0)
  | .atLeast => Number.lessEq (.int 0) x

namespace Value

/-- Whether a value counts as given: not nothing, zero or empty. -/
def truthy : Value → Bool
  | none => false
  | number x | cell x => x.truthy
  | str s => !s.isEmpty
  | list items | tuple items | set items => !items.isEmpty
  | foreign view _ _ => view.truthy
  | table entries => !entries.isEmpty
  | range start stop step => rangeLength start stop step != 0
  | record _ => true

end Value

namespace Assembly

/-- Refuse an instance that does not fit the ones its family has. -/
def checkFamily (m : Model) (key : VarKey) (kind : VariableKind) : Except Error Unit :=
  match m.indexTuples key.family with
  | [] => .ok ()
  | first :: _ =>
    if first.length ≠ key.index.length then
      raise (.arityMismatch key.family first.length key.text)
    else
      match m.declared? ⟨key.family, first⟩ with
      | some v =>
        if v.kind = kind then .ok () else raise (.kindMismatch key.family v.kind kind key.text)
      | none => breakDown .missingKey

/-- Store a variable under a legal name that no other has. -/
def addVariable (config : Config) (key : VarKey) (kind : VariableKind)
    (lower upper : Option Number) (description : Value) (auxiliary : Bool) :
    Assembly Variable := do
  let m ← model
  checkFamily m key kind
  if !key.isKey then breakDown .unsupported
  if (m.declared? key).isSome then refuse (.redeclared key.text)
  let limit ← config.nameLimit
  let name := Name.ofKey limit key
  report (Name.reportsOfKey limit key)
  match m.variableNamed? name with
  | some other => refuse (.sharedName key.text other.text name)
  | none =>
    let v : Variable := { key, kind, lower, upper, name, description, auxiliary }
    change (·.addVariable v) (.variable_ v)
    if auxiliary then
      report [⟨.debug, .model, "Added auxiliary variable " ++ key.text⟩]
    pure v

/-- Declare one variable instance from what a statement gives. Only text names a family. -/
def declareVariable (config : Config) (family : Value) (index : List Value)
    (kind lower upper description : Value) (auxiliary : Bool) : Assembly Variable :=
  transaction do
    let kind ← VariableKind.ofValue kind
    let lower ← Bound.ofValue lower
    let upper ← Bound.ofValue upper
    Bound.check (VarKey.text ⟨family.text, index⟩) kind lower upper
    match family with
    | .str family => addVariable config ⟨family, index⟩ kind lower upper description auxiliary
    | _ => breakDown .unsupported

/-- Declare a family, as a whole or not at all. -/
def declareVariables (config : Config) (family : Value) (indices : List (Except Error (List Value)))
    (kind lower upper description : Value) : Assembly (List Variable) :=
  transaction (indices.mapM fun (index : Except Error (List Value)) => do
    declareVariable config family (← index) kind lower upper description false)

/-- A number with leading zeros up to eight digits. -/
def constraintId (n : Nat) : String :=
  let digits := Decimal.digitText n
  "c" ++ FloatLayout.zeros (8 - digits.length) ++ digits

/-- The next automatic name that no constraint has. Each name that is taken costs one unit of fuel,
so one more than there are names is enough. -/
def nextConstraintId : Nat → Assembly String
  | 0 => do pure (constraintId ((← nextIndex "constraint") - 1))
  | fuel + 1 => do
    let name := constraintId ((← nextIndex "constraint") - 1)
    if ((← model).constraintNamed? name).isSome then nextConstraintId fuel else pure name

/-- The name a constraint is declared under: the given text, or the next automatic one. -/
def constraintName : Value → Assembly String
  | .none => do nextConstraintId ((← model).constraintNames.length + 1)
  | .str name => pure name
  | _ => breakDown .unsupported

/-- Store a row under a name that no other has. -/
def storeConstraint (config : Config) (name : Value) (lhs rhs : Polynomial) (relation : Relation)
    (description : Value) : Assembly Constraint :=
  transaction do
    let rawName ← constraintName name
    let limit ← config.nameLimit
    let lpName := Name.sanitize limit rawName
    report (Name.report rawName lpName)
    if lpName == Objective.label then refuse (.reservedName rawName)
    match (← model).constraintNamed? lpName with
    | some other =>
      if other == rawName then refuse (.duplicateConstraint rawName)
      else refuse (.collidingConstraint rawName other lpName)
    | none =>
      let c : Constraint := { name := lpName, rawName, lhs, relation, rhs, description }
      change (·.addConstraint c) (.constraint c)
      pure c

/-- What a constraint is called in reports: its name, else its description. -/
def constraintLabel (name description : Value) : String :=
  if name.truthy then name.text
  else if description.truthy then description.text
  else "constraint"

/-- Add `lhs relation rhs`. A constraint without variables is checked instead of stored. -/
def addConstraint (config : Config) (name : Value) (lhs : Polynomial) (relation : Relation)
    (rhs : Polynomial) (description : Value) : Assembly (Option Constraint) := do
  let difference ← lhs.sub rhs
  if difference.isConstant then
    let label := constraintLabel name description
    if relation.holds difference.constant then
      report [⟨.info, .model, "Skipping " ++ label ++ ": holds for every assignment"⟩]
      pure none
    else refuse (.infeasible label difference.constant relation)
  else
    let c ← storeConstraint config name lhs rhs relation description
    pure (some c)

/-- The relation of a sign. -/
def relationOf (op : Value) : Except Error Relation :=
  match op with
  | .str "!=" => raise .notEqualConstraint
  | .str s =>
    match Relation.ofSign? s with
    | some relation => .ok relation
    | none => raise (.unknownRelation s)
  | _ => if op.isKey then raise (.unknownRelation op.text) else breakDown .unsupported

/-- Record that a constraint statement was declared for some index values. -/
def registerDeclaration (signature : Value) (label : String) : Assembly Unit :=
  transaction do
    if !signature.isKey then breakDown .unsupported
    if (← model).declarations.any signature.same then refuse (.repeatedConstraint label)
    change (·.addDeclaration signature) (.declaration signature)

/-- Set the objective. A second one is refused, or replaces the first with a warning. -/
def setObjective (objective : Objective) (replace : Bool) : Assembly Objective :=
  transaction do
    let previous := (← model).objective
    match previous with
    | some old =>
      if !replace then refuse .secondObjective
      report [⟨.warning, .model, "Replacing existing " ++ old.direction.word ++ " objective"⟩]
    | none => pure ()
    change (fun m => { m with objective := some objective }) (.objective previous)
    pure objective

end Assembly

end LinearProgram
