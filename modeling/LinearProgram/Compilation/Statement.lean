import LinearProgram.Compilation.Expression
import LinearProgram.Document
import LinearProgram.Template

/-!
# Compiling statements

A statement declares variables or constraints, one for each binding of its generators, or sets the
objective, as a whole or not at all. A description with placeholders is filled from the bindings and
the parameters. That of a constraint also names it; a plain one gets the index values appended.
-/

namespace LinearProgram.Compilation

/-- Whether a description has placeholders. Values that hold others are searched for the brace as an
item; other values cannot be searched. -/
def mentionsBrace (text : Value) : Except Error Bool :=
  match text with
  | .str s => .ok (s.contains '\x7b')
  | .list items | .tuple items | .set items | .foreign _ (.list items) _ =>
    .ok (items.any (·.equal (.str "\x7b")))
  | .table entries | .foreign _ (.table entries) _ => .ok (Entries.contains entries (.str "\x7b"))
  | .range _ _ _ => .ok false
  | _ => breakDown .unsupported

/-- Fill the placeholders of a description. -/
def fillDescription (text : Value) (context : Context) : Except Error Value :=
  match text with
  | .str s =>
    match Template.fill context.parameters.host
      (fun name => context.bindings.get? name <|> context.parameters.table.get? name) s with
    | .ok filled => .ok (.str filled)
    | .error (.missing key) => raise (.unbound key context.bindings.names)
    | .error .unfit => raise (.description text)
  | _ => raise (.description text)

/-- A description under a context; one without placeholders stays as it is. -/
def describe (text : Value) (context : Context) : Except Error Value :=
  match text with
  | .none => .ok .none
  | _ => do if ← mentionsBrace text then fillDescription text context else pure text

/-- The name that a description gives to a constraint. -/
def constraintLabel (description : Value) (generators : List GeneratorItem) (context : Context) :
    Except Error Value := do
  match description with
  | .none => pure .none
  | _ =>
    if ← mentionsBrace description then fillDescription description context
    else
      let values := indexValues generators context
      if values.isEmpty then pure description
      else
        let s ← orUnsupported description.str?
        pure (.str ("_".intercalate (s :: values.map Value.text)))

/-- The value of a bound under a context. A tree must be free of decision variables. -/
def boundValue (context : Context) : Datum → Except Error Value
  | .data value => .ok value
  | .tree e => if e.isConstant then e.evaluate context else raise (.boundVariables e)

/-- Declare one variable for each binding. -/
def addVariables (config : Config) (parameters : Parameters) (name : Value)
    (generators : List GeneratorItem) (kind : Value) (lower upper : Datum) (description : Value) :
    Assembly (List Variable) := do
  let declared ← Assembly.transaction
    (Assembly.foldListing (bindings generators { parameters })
      (fun (done : List Variable) context => do
        let low ← boundValue context lower
        let high ← boundValue context upper
        let text ← describe description context
        let v ← Assembly.declareVariable config name (indexValues generators context) kind low high
          text false
        pure (done ++ [v])) [])
  Assembly.report [⟨.debug, .compiler,
    "Declared " ++ toString declared.length ++ " instance(s) of " ++ name.text⟩]
  pure declared

/-- Declare the constraint of one binding. -/
def addConstraintInstance (config : Config) (op : Comparison) (left right : Expr)
    (generators : List GeneratorItem) (description : Value) (context : Context) :
    Assembly (Option Constraint) := do
  let values := indexValues generators context
  let shown ← orUnsupported (Expr.compare op left right).text?
  let tuple := Value.tupleQuoted values
  Assembly.registerDeclaration (.tuple [.str shown, .str tuple])
    (if values.isEmpty then shown else shown ++ " for " ++ tuple)
  let lhs ← compile config left context
  let rhs ← compile config right context
  let label ← constraintLabel description generators context
  let relation ← Assembly.relationOf (.str op.sign)
  Assembly.addConstraint config label lhs relation rhs label

/-- Declare the constraint of one binding and list it after those before; one that always holds is
left out. -/
def declareNext (config : Config) (op : Comparison) (left right : Expr)
    (generators : List GeneratorItem) (description : Value) (done : List Constraint)
    (context : Context) : Assembly (List Constraint) := do
  match ← addConstraintInstance config op left right generators description context with
  | some c => pure (done ++ [c])
  | none => pure done

/-- Declare one constraint for each binding. -/
def addConstraints (config : Config) (parameters : Parameters) (op : Comparison) (left right : Expr)
    (generators : List GeneratorItem) (description : Value) : Assembly (List Constraint) :=
  Assembly.transaction (Assembly.foldListing (bindings generators { parameters })
    (declareNext config op left right generators description) [])

/-- Set the objective to a compiled tree. -/
def setObjective (config : Config) (parameters : Parameters) (expr : Expr) (direction : Value)
    (replace : Bool) : Assembly Objective :=
  Assembly.transaction do
    let polynomial ← compile config expr { parameters }
    let direction ← Direction.ofValue direction
    Assembly.setObjective { polynomial, direction } replace

/-- What a statement has added. -/
inductive Added where
  | columns (declared : List Variable)
  | rows (declared : List Constraint)
  | objective (set : Objective)

/-- Carry out a statement; `replace` says whether it may replace an objective. -/
def applyStatement (config : Config) (parameters : Parameters) (replace : Bool) :
    Statement → Assembly Added
  | .variableFamily name generators kind lower upper description => do
    pure (.columns
      (← addVariables config parameters name generators kind lower upper description))
  | .constraintFamily op left right generators description => do
    pure (.rows
      (← addConstraints config parameters op left right generators description))
  | .objective expr direction => do
    pure (.objective (← setObjective config parameters expr direction replace))

/-- Carry out statements in order. -/
def applyStatements (config : Config) (parameters : Parameters) (replace : Bool)
    (statements : List Statement) : Assembly Unit :=
  statements.forM fun statement => do
    let _ ← applyStatement config parameters replace statement

/-- Build a model from a block of statements, which may set one objective. -/
def define (config : Config) (parameters : Parameters) (name : Value)
    (statements : List Statement) : Except Error Unit × Store :=
  (applyStatements config parameters false statements).run { model := { name } }

end LinearProgram.Compilation
