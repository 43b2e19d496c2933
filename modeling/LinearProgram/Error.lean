import LinearProgram.Expr.Printer
import LinearProgram.Json.Reader
import LinearProgram.Model.Kind
import LinearProgram.Polynomial.Basic

/-!
# Errors

An operation fails for a `Cause`, which has a kind and a message, or by a `Breakdown`: the values at
hand do not support what was asked of them. A message may show a tree. If the tree has no written
form, then neither has the message, and `raise` reports that breakdown instead of the cause.
-/

namespace LinearProgram

/-- The kinds of failures. -/
inductive ErrorKind where
  | domain | unboundSymbol | keyNotFound | ambiguousWildcard | nonLinear | unboundedLinearization
  | undefinedVariable | nonNumeric | divisionByZero | infeasibleConstraint
  | model | redefinition | bounds | duplicateObjective | duplicateName
  | invalid
  | mistyped
  /-- A path that leads nowhere. -/
  | badPath
  deriving Repr, DecidableEq, Inhabited

namespace ErrorKind

/-- The name under which the command line reports a failed compilation; the other kinds are about
input and have none. -/
def compileName? : ErrorKind → Option String
  | domain => some "DomainError"
  | unboundSymbol => some "UnboundSymbolError"
  | keyNotFound => some "KeyNotFoundError"
  | ambiguousWildcard => some "AmbiguousWildcardError"
  | nonLinear => some "NonLinearError"
  | unboundedLinearization => some "UnboundedLinearizationError"
  | undefinedVariable => some "UndefinedVariableError"
  | nonNumeric => some "NonNumericError"
  | divisionByZero => some "DivisionByZeroError"
  | infeasibleConstraint => some "InfeasibleConstraintError"
  | model => some "ModelError"
  | redefinition => some "RedefinitionError"
  | bounds => some "BoundsError"
  | duplicateObjective => some "DuplicateObjectiveError"
  | duplicateName => some "DuplicateNameError"
  | invalid | mistyped | badPath => none

end ErrorKind

/-- What a key was looked up in. -/
inductive Container where
  | table (keys : List Value)
  /-- A sequence asked for something that is no position. -/
  | positions
  | sequence (length : Nat)
  | other (value : Value)

/-- A container in words; of a table the first ten keys are shown. -/
def Container.text : Container → String
  | table keys => "mapping with keys " ++ (Value.list (keys.take 10)).quoted
  | positions => "sequence (integer positions only)"
  | sequence length => "sequence of length " ++ toString length
  | other value => "non-container value " ++ value.quoted

/-- What is wrong with a document. -/
inductive DocumentFault where
  | unreadable (e : Json.SyntaxError)
  | topLevel
  | parameters
  | statementShape (data : Value)
  | notComparison (data : Value)
  | unknownStatement (data : Value)
  | generator (data : Value)
  | booleanExpression
  | expression (data : Value)
  | argumentCount (op : String) (expected actual : Nat)
  | tooFewArguments (op : String) (least : Nat)
  | piecewise (reason : String)
  | unknownOperator (op : Value)

def DocumentFault.message (fault : DocumentFault) : String :=
  "Invalid model JSON: " ++ match fault with
    | unreadable e => e.message
    | topLevel => "top level must be an object"
    | parameters => "'parameters' must be an object"
    | statementShape data => "statement " ++ data.quoted ++ " is not an object"
    | notComparison data => "constraint " ++ data.quoted ++ " is not a comparison"
    | unknownStatement data => "unknown statement " ++ data.quoted
    | generator data => "bad generator " ++ data.quoted
    | booleanExpression => "booleans are not expressions"
    | expression data => "bad expression " ++ data.quoted
    | argumentCount op expected actual =>
      "'" ++ op ++ "' takes " ++ toString expected ++ " argument(s), got " ++ toString actual
    | tooFewArguments op least =>
      "'" ++ op ++ "' takes at least " ++ toString least ++ " argument(s)"
    | piecewise reason => "piecewise: " ++ reason
    | unknownOperator op => "unknown operator " ++ op.quoted

/-- What is wrong with parameters. -/
inductive ParameterFault where
  | unreadable (e : Json.SyntaxError)
  | topLevel
  | overrideForm (text : String)
  | notAddressable (path part : String)
  | notContainer (path : String)

def ParameterFault.kind : ParameterFault → ErrorKind
  | unreadable _ | topLevel | overrideForm _ => .invalid
  | notAddressable _ _ | notContainer _ => .badPath

/-- The message about a path is itself shown in quotes. -/
def ParameterFault.message : ParameterFault → String
  | unreadable e => "Invalid parameters JSON: " ++ e.message
  | topLevel => "Invalid parameters JSON: top level must be an object"
  | overrideForm text => "Invalid override " ++ Quoted.quote text ++ ": expected path=value"
  | notAddressable path part =>
    Quoted.quote ("Cannot follow " ++ Quoted.quote path ++ ": " ++ Quoted.quote part
      ++ " is not addressable")
  | notContainer path =>
    Quoted.quote ("Cannot set " ++ Quoted.quote path ++ ": parent is not a container")

/-- Why an operation fails. Fields named `shown` hold a written form. -/
inductive Cause where
  -- evaluation
  | unbound (name : String) (bound : List String)
  | keyNotFound (key : Value) (container : Container)
  | wildcardKey
  | wildcardValue
  | patternValue (pattern : Expr)
  | notNumber (source : Expr) (value : Value)
  | notBoolean (source : Expr) (value : Value)
  | divisionByZero (source : Expr)
  | incomparable (left : Value) (op : Comparison) (right : Value)
  | noArguments (op : Aggregate)
  | rangeEnds (start stop : Number)
  | outsidePiecewise (x : Number) (first last : Value)
  | notConstant (source : Expr)
  -- trees
  | notExpression (shown : String)
  | notGenerator (shown : String)
  | dotKey (key : Expr)
  | unknownArithmetic (shown : String)
  | unknownComparison (shown : String)
  | fewBreakpoints
  | segmentCount (segments : Nat)
  | breakpointOrder
  -- bindings
  | domainVariables (name : String) (domain : Expr)
  | domainText (name : String)
  | domainUnordered (name : String) (domain : Value)
  | domainShape (name : String) (domain : Value)
  | filterFailed (cond : Expr) (cause : Cause)
  | filterValue (cond : Expr) (value : Value)
  -- wildcards
  | wildcardFamily (reference : Expr) (name : Value)
  | wildcardContainer (chain container : Expr)
  | misplacedWildcard
  | wildcardIndex (reference : Expr)
  | indexNotConstant (index : Expr) (name : Value)
  -- polynomials
  | notLinear (shown : String)
  | product (left right : Polynomial)
  | divisor (right : Polynomial)
  | quotientByZero (left : Polynomial)
  | notFoldable (source : Expr)
  | undeclaredFamily (name : Value)
  | undeclaredInstance (key : VarKey)
  -- linearization
  | unboundedOperand (operation : String) (operand : Polynomial) (lower upper : Number)
  | noOperands (label : String)
  | operandNotBoolean (label : String) (operand : Polynomial)
  | conditionNotBoolean (cond : Polynomial)
  -- models
  | unknownKind (value : Value)
  | unknownDirection (value : Value)
  | invalidBound (shown : String)
  | binaryBounds (name : String)
  | fractionalBound (name : String) (bound : Number)
  | lowerInfinite (name : String)
  | upperInfinite (name : String)
  | crossedBounds (name : String) (lower upper : Number)
  | arityMismatch (family : String) (arity : Nat) (name : String)
  | kindMismatch (family : String) (declared given : VariableKind) (name : String)
  | redeclared (name : String)
  | sharedName (name other lpName : String)
  | notEqualConstraint
  | unknownRelation (shown : String)
  | infeasible (label : String) (constant : Number) (relation : Relation)
  | reservedName (name : String)
  | duplicateConstraint (name : String)
  | collidingConstraint (name other lpName : String)
  | repeatedConstraint (label : String)
  | secondObjective
  -- statements
  | misplacedPattern (pattern : Expr)
  | comparisonValue (comparison : Expr)
  | noInstances (source : Expr)
  | boundVariables (bound : Expr)
  | notComparison (shown : String)
  | unknownStatement (shown : String)
  | description (text : Value)
  -- configuration, documents and parameters
  | slack (shown : String)
  | nameLength
  | document (fault : DocumentFault)
  | parameters (fault : ParameterFault)

namespace Cause

/-- The kind of failure that a cause is reported as. -/
def kind : Cause → ErrorKind
  | unbound _ _ => .unboundSymbol
  | keyNotFound _ _ => .keyNotFound
  | wildcardKey | wildcardValue | patternValue _ | wildcardFamily _ _ | wildcardContainer _ _
  | misplacedWildcard | wildcardIndex _ | misplacedPattern _ => .ambiguousWildcard
  | notNumber _ _ | notBoolean _ _ | incomparable _ _ _ | notLinear _ => .nonNumeric
  | divisionByZero _ | quotientByZero _ => .divisionByZero
  | noArguments _ | rangeEnds _ _ | outsidePiecewise _ _ _ | domainVariables _ _ | domainText _
  | domainUnordered _ _ | domainShape _ _ | filterFailed _ _ | filterValue _ _
  | indexNotConstant _ _ | noOperands _ | noInstances _ | boundVariables _ | description _ =>
    .domain
  | product _ _ | divisor _ | notFoldable _ | operandNotBoolean _ _ | conditionNotBoolean _
  | notEqualConstraint | comparisonValue _ => .nonLinear
  | undeclaredFamily _ | undeclaredInstance _ => .undefinedVariable
  | unboundedOperand _ _ _ _ => .unboundedLinearization
  | unknownKind _ | unknownDirection _ => .model
  | invalidBound _ | binaryBounds _ | fractionalBound _ _ | lowerInfinite _ | upperInfinite _
  | crossedBounds _ _ _ => .bounds
  | arityMismatch _ _ _ | kindMismatch _ _ _ _ | redeclared _ | repeatedConstraint _ =>
    .redefinition
  | sharedName _ _ _ | reservedName _ | duplicateConstraint _ | collidingConstraint _ _ _ =>
    .duplicateName
  | infeasible _ _ _ => .infeasibleConstraint
  | secondObjective => .duplicateObjective
  | dotKey _ | unknownArithmetic _ | unknownComparison _ | fewBreakpoints | segmentCount _
  | breakpointOrder | unknownRelation _ | notComparison _ | slack _ | nameLength => .invalid
  | document _ => .invalid
  | notConstant _ | notExpression _ | notGenerator _ | unknownStatement _ => .mistyped
  | parameters fault => fault.kind

/-- Names in a list, or the word for none. -/
def nameList (names : List String) : String :=
  if names.isEmpty then "(none)" else Value.commas names

/-- The message of a cause; `none` if it shows a tree without written form. -/
def message? : Cause → Option String
  | unbound name bound =>
    some ("Symbol '" ++ name ++ "' is not bound in the current context (bound names: "
      ++ nameList bound ++ ")")
  | keyNotFound key container =>
    some ("Key " ++ key.quoted ++ " not found in " ++ container.text)
  | wildcardKey => some "Wildcard lookup key must be expanded before evaluation"
  | wildcardValue => some "Wildcard outside an expandable context"
  | patternValue pattern => do
    pure ("Pattern " ++ (← pattern.text?) ++ " must be expanded before evaluation")
  | notNumber source value => do
    pure ("Expected a number from " ++ (← source.text?) ++ ", got " ++ value.quoted ++ " ("
      ++ value.typeWord ++ ")")
  | notBoolean source value => do
    pure ("Expected a boolean from " ++ (← source.text?) ++ ", got " ++ value.quoted)
  | divisionByZero source => do pure ("Division by zero in " ++ (← source.text?))
  | incomparable left op right =>
    some ("Cannot compare " ++ left.quoted ++ " " ++ op.sign ++ " " ++ right.quoted)
  | noArguments op => some (op.word ++ " of no arguments")
  | rangeEnds start stop =>
    some ("Range ends must be integers, got " ++ start.text ++ ".." ++ stop.text)
  | outsidePiecewise x first last =>
    some (x.text ++ " lies outside the piecewise domain [" ++ first.text ++ ", " ++ last.text
      ++ "]")
  | notConstant source => do pure ("Cannot evaluate " ++ (← source.text?) ++ " as a constant")
  | notExpression shown => some ("Cannot use " ++ shown ++ " as an expression")
  | notGenerator shown => some ("Invalid generator: " ++ shown)
  | dotKey key => do
    pure ("Dot access requires a bare name key, got " ++ (← key.text?)
      ++ "; use bracket indexing instead")
  | unknownArithmetic shown => some ("Unknown arithmetic operator: " ++ shown)
  | unknownComparison shown => some ("Unknown comparison operator: " ++ shown)
  | fewBreakpoints => some "Piecewise function needs at least 2 breakpoints"
  | segmentCount segments =>
    some ("Expected " ++ toString segments ++ " slopes and intercepts for "
      ++ toString (segments + 1) ++ " breakpoints")
  | breakpointOrder => some "Breakpoints must be strictly increasing"
  | domainVariables name domain => do
    pure ("Domain of '" ++ name ++ "' references decision variables: " ++ (← domain.text?))
  | domainText name => some ("Domain of '" ++ name ++ "' is a string; wrap it in a list")
  | domainUnordered name domain =>
    some ("Domain of '" ++ name ++ "' is unordered: " ++ domain.quoted)
  | domainShape name domain =>
    some ("Domain of '" ++ name ++ "' is not a finite ordered sequence: " ++ domain.quoted)
  | filterFailed cond cause => do
    let c ← cond.text?
    let inner ← message? cause
    pure ("Filter " ++ c ++ " failed: " ++ inner)
  | filterValue cond value => do
    pure ("Filter " ++ (← cond.text?) ++ " must evaluate to a boolean, got " ++ value.quoted)
  | wildcardFamily reference name => do
    pure ("Cannot determine the domain of the wildcard in " ++ (← reference.text?) ++ ": '"
      ++ name.text ++ "' has no declared instances")
  | wildcardContainer chain container => do
    let c ← chain.text?
    let inner ← container.text?
    pure ("Cannot determine the domain of the wildcard in " ++ c ++ ": " ++ inner
      ++ " is not a container")
  | misplacedWildcard => some "Wildcards are only valid as variable indices or lookup keys"
  | wildcardIndex reference => do
    pure ("Wildcard in " ++ (← reference.text?) ++ " outside a sum or aggregate")
  | indexNotConstant index name => do
    pure ("Index " ++ (← index.text?) ++ " of " ++ name.text ++ " is not constant")
  | notLinear shown => some ("Cannot use " ++ shown ++ " in a linear expression")
  | product left right =>
    some ("Product of two non-constant expressions: " ++ left.text ++ " * " ++ right.text)
  | divisor right => some ("Division by a non-constant expression: " ++ right.text)
  | quotientByZero left => some ("Division of " ++ left.text ++ " by zero")
  | notFoldable source => do
    pure (source.word ++ " cannot be folded into a linear expression: " ++ (← source.text?))
  | undeclaredFamily name => some ("Variable '" ++ name.text ++ "' has not been declared")
  | undeclaredInstance key =>
    some ("Variable " ++ key.text ++ " is not a declared instance of '" ++ key.family ++ "'")
  | unboundedOperand operation operand lower upper =>
    some ("Cannot linearize " ++ operation ++ ": operand " ++ operand.text ++ " has bounds ["
      ++ lower.text ++ ", " ++ upper.text ++ "]; declare finite bounds on its variables")
  | noOperands label => some (label ++ " of no operands")
  | operandNotBoolean label operand =>
    some ("Operands of " ++ label ++ " must be 0/1 valued, got " ++ operand.text)
  | conditionNotBoolean cond =>
    some ("Condition of if-then-else must be 0/1 valued, got " ++ cond.text)
  | unknownKind value =>
    some ("Unknown variable kind " ++ value.quoted ++ "; expected one of "
      ++ (Value.list (VariableKind.all.map fun k => .str k.word)).quoted)
  | unknownDirection value => some ("Unknown objective direction " ++ value.quoted)
  | invalidBound shown => some ("Invalid bound " ++ shown)
  | binaryBounds name => some ("Binary variable " ++ name ++ " cannot have explicit bounds")
  | fractionalBound name bound =>
    some ("Integer variable " ++ name ++ " has non-integral bound " ++ bound.text)
  | lowerInfinite name => some ("Variable " ++ name ++ " has a lower bound of +inf")
  | upperInfinite name => some ("Variable " ++ name ++ " has an upper bound of -inf")
  | crossedBounds name lower upper =>
    some ("Variable " ++ name ++ " has lower bound " ++ lower.text ++ " above upper bound "
      ++ upper.text)
  | arityMismatch family arity name =>
    some ("Variable '" ++ family ++ "' has " ++ toString arity ++ " indices, cannot declare "
      ++ name)
  | kindMismatch family declared given name =>
    some ("Variable '" ++ family ++ "' is " ++ declared.word ++ ", cannot add " ++ given.word
      ++ " instance " ++ name)
  | redeclared name => some ("Variable " ++ name ++ " is already declared")
  | sharedName name other lpName =>
    some ("Variable " ++ name ++ " and " ++ other ++ " share the LP name '" ++ lpName ++ "'")
  | notEqualConstraint => some "'!=' constraints cannot be expressed in LP form"
  | unknownRelation shown => some ("Unknown constraint operator: " ++ shown)
  | infeasible label constant relation =>
    some (label ++ " reduces to " ++ constant.text ++ " " ++ relation.sign
      ++ " 0, which is false")
  | reservedName name => some ("Constraint name '" ++ name ++ "' is reserved for the objective")
  | duplicateConstraint name => some ("Duplicate constraint name '" ++ name ++ "'")
  | collidingConstraint name other lpName =>
    some ("Constraint names '" ++ name ++ "' and '" ++ other ++ "' both become '" ++ lpName
      ++ "'")
  | repeatedConstraint label => some ("Constraint " ++ label ++ " is already declared")
  | secondObjective => some "The model already has an objective"
  | misplacedPattern pattern => do
    pure ((← pattern.text?) ++ " is only valid as the single argument of max, min, and, or")
  | comparisonValue comparison => do
    pure ("Comparison " ++ (← comparison.text?)
      ++ " of decision variables cannot be used as a value")
  | noInstances source => do pure ((← source.text?) ++ " has no instances to aggregate")
  | boundVariables bound => do
    pure ("Bound " ++ (← bound.text?) ++ " references decision variables")
  | notComparison shown => some ("A constraint must be a comparison, got " ++ shown)
  | unknownStatement shown => some ("Unknown statement: " ++ shown)
  | description text => some ("Cannot fill description " ++ text.quoted ++ ":")
  | slack shown => some ("big_m_slack must be >= 1.0, got " ++ shown)
  | nameLength => some "max_name_length must be positive"
  | document fault => some fault.message
  | parameters fault => some fault.message

end Cause

/-- An operation that its operands do not support. -/
inductive Breakdown where
  | unsupported
  /-- A text does not have the form of the value it should give. -/
  | malformed (reason : String)
  | missingKey
  | outOfRange
  /-- An integer is too large to become a double, or a sequence too long to be counted. -/
  | overflow
  | outOfMemory
  | zeroDivisor
  | noAttribute
  /-- More values were asked for than there are. -/
  | exhausted
  | noFile
  | isFolder
  deriving Repr, DecidableEq, Inhabited

/-- Why a step fails: it is refused, or it breaks down. -/
inductive Error where
  | refused (cause : Cause)
  | broken (breakdown : Breakdown)

namespace Error

instance : Inhabited Error := ⟨.broken .unsupported⟩

/-- The message of an error; a breakdown has none. -/
def message? : Error → Option String
  | refused cause => cause.message?
  | broken _ => none

end Error

/-- Fail for a cause, or for want of a written form of the tree its message shows. -/
def raise {α : Type} (cause : Cause) : Except Error α :=
  .error (if cause.message?.isSome then .refused cause else .broken .unsupported)

/-- Fail with a breakdown. -/
def breakDown {α : Type} (breakdown : Breakdown) : Except Error α := .error (.broken breakdown)

/-- A result that is missing only when an integer or a length is too large. -/
def orOverflow {α : Type} : Option α → Except Error α
  | some x => .ok x
  | none => breakDown .overflow

/-- The integers of a range written out as a list, which must not be too long. -/
def Value.rangeList (start stop step : Int) : Except Error (List Value) :=
  let length := rangeLength start stop step
  if maxLength < length then breakDown .overflow
  else if maxItems < length then breakDown .outOfMemory
  else .ok (rangeItems start stop step)

/-- A written form, which is missing only when a tree has none. -/
def orUnsupported {α : Type} : Option α → Except Error α
  | some x => .ok x
  | none => breakDown .unsupported

end LinearProgram
