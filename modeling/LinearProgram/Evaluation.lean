import LinearProgram.Context
import LinearProgram.Value.Arithmetic

/-!
# Evaluation of constant trees

`Expr.evaluate` gives the value of a tree without decision variables, and `bindings` lists the
contexts that generators and filters give rise to. A listing may break off with an error after some
of them, which a consumer meets first. Trees of every depth are evaluated; a limit on the depth of
the recursion is not part of the rules.
-/

namespace LinearProgram

/-- Items in order, and the error that ended the listing early, if one did. -/
structure Listing (α : Type) where
  items : List α
  stop : Option Error := none

namespace Listing

/-- List the parts one after the other, up to the first error. -/
def chain {α β : Type} (parts : α → Listing β) : List α → Listing β
  | [] => ⟨[], none⟩
  | a :: rest =>
    let first := parts a
    match first.stop with
    | some _ => first
    | none =>
      let others := chain parts rest
      ⟨first.items ++ others.items, others.stop⟩

/-- Fold over the items, then fail with the error that ended the listing. -/
def foldM {α σ : Type} (listing : Listing α) (f : σ → α → Except Error σ) (start : σ) :
    Except Error σ := do
  let result ← listing.items.foldlM f start
  match listing.stop with
  | some e => .error e
  | none => pure result

end Listing

/-- The number a tree's value is required to be. -/
def requireNumber (source : Expr) : Value → Except Error Number
  | .number x => .ok x
  | value => raise (.notNumber source value)

/-- The truth value a tree's value is required to be; zero and one count as such. -/
def requireTruth (source : Expr) : Value → Except Error Bool
  | .number (.bool b) => .ok b
  | .number x =>
    if x.isZero then .ok false
    else if x.equal (.int 1) then .ok true
    else raise (.notBoolean source (.number x))
  | value => raise (.notBoolean source value)

/-- Compare two values. Equality applies to all values, order only to those that have one, and the
host compares its own objects. -/
def compareValues (host : Host) (op : Comparison) (left right : Value) : Except Error Value :=
  host.compareBy (raise (.incomparable left op right)) op left right

/-- Apply an arithmetic operator to numbers; `source` is the whole expression. -/
def applyArithmetic (source : Expr) (op : Arithmetic) (left right : Number) :
    Except Error Number :=
  match op with
  | .add => orOverflow (left.add right)
  | .sub => orOverflow (left.sub right)
  | .mul => orOverflow (left.mul right)
  | .div => if right.isZero then raise (.divisionByZero source) else orOverflow (left.div right)

/-- The greatest or least of some numbers, the first of equals. -/
def extremum (op : Aggregate) : List Number → Except Error Number
  | [] => raise (.noArguments op)
  | x :: rest =>
    .ok (rest.foldl (match op with | .max => Number.maxFirst | _ => Number.minFirst) x)

/-- The whole numbers from one end to the other. -/
def integerRange (start stop : Number) : Except Error Value :=
  match start.whole?, stop.whole? with
  | some a, some b => (Value.rangeList a (b + 1) 1).map .list
  | _, _ => raise (.rangeEnds start stop)

/-- Whether `a ≤ b`, for values that must have an order. -/
def requireLessEq (a b : Value) : Except Error Bool :=
  orUnsupported (Value.ordered? .lessEq a b)

def affine (slope intercept : Value) (x : Number) : Except Error Value := do
  let y ← slope.mul (.number x)
  y.add intercept

/-- The first segment that holds `x` gives the value. -/
def evaluateSegments (x : Number) :
    List Value → List Value → List Value → Except Error (Option Value)
  | low :: high :: points, slope :: slopes, intercept :: intercepts => do
    let above ← requireLessEq low (.number x)
    let within ← if above then requireLessEq (.number x) high else pure false
    if within then
      let y ← affine slope intercept x
      pure (some y)
    else evaluateSegments x (high :: points) slopes intercepts
  | _, _, _ => .ok none

/-- The value of the first piece that holds the argument. -/
def evaluatePiecewise (breakpoints slopes intercepts : List Value) (x : Number) :
    Except Error Value := do
  match ← evaluateSegments x breakpoints slopes intercepts with
  | some y => pure y
  | none =>
    raise (.outsidePiecewise x (breakpoints.head?.getD .none) (breakpoints.getLast?.getD .none))

/-- The values of a domain in order. A table stands for its keys; text and sets are refused. -/
def domainItems (name : String) (domain : Value) : Except Error (List Value) :=
  match domain with
  | .range start stop step => Value.rangeList start stop step
  | .list items | .tuple items => .ok (items.map Value.normalize)
  | .table entries | .foreign _ (.table entries) _ => .ok (entries.map (·.1.normalize))
  | .str _ => raise (.domainText name)
  | .set _ => raise (.domainUnordered name domain)
  | .foreign view _ listed =>
    if view.isFlat then .ok (listed.map Value.normalize) else raise (.domainShape name domain)
  | _ => raise (.domainShape name domain)

/-- The verdict of a filter whose condition evaluated as given. A condition that is not numeric
where it should be makes the filter fail; only a truth value is a verdict. -/
def filterVerdict (cond : Expr) : Except Error Value → Except Error Bool
  | .ok (.number (.bool b)) => .ok b
  | .ok value => raise (.filterValue cond value)
  | .error (.refused cause) =>
    if cause.kind = .nonNumeric then raise (.filterFailed cond cause) else .error (.refused cause)
  | .error e => .error e

mutual

/-- The value of a constant tree. -/
def Expr.evaluate : Expr → Context → Except Error Value
  | .literal value, _ => .ok value.normalize
  | .symbol name, context => context.resolve name
  | .lookup container key dot, context => do
    let c ← container.evaluate context
    let k ←
      match key with
      | .wildcard => raise .wildcardKey
      | .symbol name =>
        match if dot then none else context.bindings.get? name with
        | some value => pure value.normalize
        | none => pure (.str name)
      | _ => key.evaluate context
    c.lookup context.parameters.host k dot
  | .arith op left right, context => do
    let l ← requireNumber left (← left.evaluate context)
    let r ← requireNumber right (← right.evaluate context)
    let x ← applyArithmetic (.arith op left right) op l r
    pure (.number x)
  | .negate operand, context => do
    let x ← requireNumber operand (← operand.evaluate context)
    pure (.number x.neg)
  | .compare op left right, context => do
    let l ← left.evaluate context
    let r ← right.evaluate context
    compareValues context.parameters.host op l r
  | .aggregate .and args, context => do pure (.bool (← evaluateAll args context))
  | .aggregate .or args, context => do pure (.bool (← evaluateAny args context))
  | .aggregate op args, context => do
    let values ← evaluateNumbers args context
    let x ← extremum op values
    pure (.number x)
  | .ifThenElse cond thenBranch elseBranch, context => do
    if ← requireTruth cond (← cond.evaluate context) then thenBranch.evaluate context
    else elseBranch.evaluate context
  | .abs operand, context => do
    let x ← requireNumber operand (← operand.evaluate context)
    pure (.number x.abs)
  | .sum args, context => do
    let x ← evaluateSum args context (.int 0)
    pure (.number x)
  | .sumOver body generators, context => do
    let total ← (bindings generators context).foldM (fun (total : Number) inner => do
      let x ← requireNumber body (← body.evaluate inner)
      orOverflow (total.add x)) (.int 0)
    pure (.number total)
  | .range start stop, context => do
    let a ← requireNumber start (← start.evaluate context)
    let b ← requireNumber stop (← stop.evaluate context)
    integerRange a b
  | .piecewise operand breakpoints slopes intercepts, context => do
    let x ← requireNumber operand (← operand.evaluate context)
    evaluatePiecewise breakpoints slopes intercepts x
  | .each pattern, _ => raise (.patternValue (.each pattern))
  | .wildcard, _ => raise .wildcardValue
  | .ref name indices, _ => raise (.notConstant (.ref name indices))

/-- Whether all trees are true, up to the first false one. -/
def evaluateAll : List Expr → Context → Except Error Bool
  | [], _ => .ok true
  | e :: rest, context => do
    if ← requireTruth e (← e.evaluate context) then evaluateAll rest context else pure false

/-- Whether some tree is true, up to the first true one. -/
def evaluateAny : List Expr → Context → Except Error Bool
  | [], _ => .ok false
  | e :: rest, context => do
    if ← requireTruth e (← e.evaluate context) then pure true else evaluateAny rest context

/-- The values of trees, which must be numbers. -/
def evaluateNumbers : List Expr → Context → Except Error (List Number)
  | [], _ => .ok []
  | e :: rest, context => do
    let x ← requireNumber e (← e.evaluate context)
    let others ← evaluateNumbers rest context
    pure (x :: others)

/-- The sum of trees, added to a total. -/
def evaluateSum : List Expr → Context → Number → Except Error Number
  | [], _, total => .ok total
  | e :: rest, context, total => do
    let x ← requireNumber e (← e.evaluate context)
    evaluateSum rest context (← orOverflow (total.add x))

/-- The contexts that generators and filters give rise to. The first generator varies slowest, and
a filter is checked as soon as it is reached. -/
def bindings : List GeneratorItem → Context → Listing Context
  | [], context => ⟨[context], none⟩
  | .filter cond :: rest, context =>
    match filterVerdict cond (cond.evaluate context) with
    | .ok true => bindings rest context
    | .ok false => ⟨[], none⟩
    | .error e => ⟨[], some e⟩
  | .generator name domain :: rest, context =>
    match domain.domainValues name context with
    | .ok values => Listing.chain (fun value => bindings rest (context.bind name value)) values
    | .error e => ⟨[], some e⟩

/-- The values that a generator ranges over. -/
def Datum.domainValues : Datum → String → Context → Except Error (List Value)
  | .data value, name, _ => domainItems name value
  | .tree e, name, context =>
    if e.isConstant then do
      let value ← e.evaluate context
      domainItems name value
    else raise (.domainVariables name e)

end

namespace Expr

/-- The value of a constant tree; any other tree stays as it is. -/
def reduce (e : Expr) (context : Context) : Except Error Datum :=
  if e.isConstant then do pure (.data (← e.evaluate context)) else .ok (.tree e)

/-- The value of a tree, which must be a number. -/
def evaluateNumber (e : Expr) (context : Context) : Except Error Number := do
  requireNumber e (← e.evaluate context)

end Expr

/-- The values of the generators' names under a context, in order. -/
def indexValues (generators : List GeneratorItem) (context : Context) : List Value :=
  generators.filterMap fun item => item.name?.bind context.bindings.get?

/-- The names that generators bind. -/
def boundNames (generators : List GeneratorItem) : List String :=
  generators.filterMap GeneratorItem.name?

end LinearProgram
