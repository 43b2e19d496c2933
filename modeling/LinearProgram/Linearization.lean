import LinearProgram.Declaration
import LinearProgram.Value.Order

/-!
# Linearization

A nonlinear operator is replaced by a polynomial over auxiliary variables, tied down by linear rows
that are equivalent over the operands' declared bounds. The big-M constants come from these bounds,
so an operand without finite bounds is refused. The rows of each operator are a plain list. Each row
is computed when its turn comes, so the first failure in their order is the one that shows.
-/

namespace LinearProgram

namespace Model

/-- The interval of a polynomial over the bounds of its variables. -/
def boundsOf (m : Model) (p : Polynomial) : Except Error (Number × Number) :=
  p.bounds m.variableBounds

/-- The interval of an operand, whose ends must be finite. -/
def finiteBoundsOf (m : Model) (p : Polynomial) (operation : String) :
    Except Error (Number × Number) := do
  let (lower, upper) ← m.boundsOf p
  if lower.isFinite && upper.isFinite then pure (lower, upper)
  else raise (.unboundedOperand operation p lower upper)

/-- Whether a coefficient is a whole number that a double holds exactly. -/
def isWholeCoefficient (x : Number) : Except Error Bool := do
  let f ← orOverflow x.toFloat?
  pure (x.whole?.isSome && x.equal (.float f))

/-- Whether all terms are whole multiples of integer variables, up to the first that is not. -/
def areWholeTerms (m : Model) : List (VarKey × Number) → Except Error Bool
  | [] => .ok true
  | term :: rest =>
    match m.declared? term.1 with
    | none => .ok false
    | some v =>
      if v.kind = .continuous then .ok false
      else do
        if ← isWholeCoefficient term.2 then m.areWholeTerms rest else pure false

/-- Whether a polynomial takes the values 0 and 1 only. -/
def isBoolean (m : Model) (p : Polynomial) : Except Error Bool := do
  let (lower, upper) ← m.boundsOf p
  if lower.less (.int 0) || Number.less (.int 1) upper then pure false
  else if ← isWholeCoefficient p.constant then m.areWholeTerms p.terms
  else pure false

end Model

namespace Linearization

/-- One linear condition `lhs relation rhs`; the tag ends its name. -/
structure Row where
  tag : String
  lhs : Polynomial
  relation : Relation
  rhs : Number := .int 0

/-- The sum of polynomials. -/
def total (operands : List Polynomial) : Except Error Polynomial :=
  operands.foldlM Polynomial.add (Polynomial.const (.int 0))

/-- A big-M constant: the distance of two bounds times the slack. -/
def bigM (slack high low : Number) : Except Error Number := do
  orOverflow (slack.mul (← orOverflow (high.sub low)))

/-- `a ≥ e` and `a ≥ -e`. -/
def absoluteRows (a e : Polynomial) : List (Except Error Row) :=
  [do pure { tag := "pos", lhs := ← a.sub e, relation := .atLeast },
   do pure { tag := "neg", lhs := ← a.add e, relation := .atLeast }]

/-- Exactly one selector is on. -/
def oneRow (selectors : List Polynomial) : Except Error Row := do
  pure { tag := "one", lhs := ← total selectors, relation := .equal, rhs := .int 1 }

/-- An operand of `max` or `min`: its number from one on, the operand, its selector and bounds. -/
structure Choice where
  number : Nat
  operand : Polynomial
  selector : Polynomial
  lower : Number
  upper : Number

/-- Operands with their numbers, selectors and bounds. -/
def choices : Nat → List Polynomial → List Polynomial → List (Number × Number) → List Choice
  | k, e :: operands, y :: selectors, range :: ranges =>
    ⟨k, e, y, range.1, range.2⟩ :: choices (k + 1) operands selectors ranges
  | _, _, _, _ => []

/-- `z ≥ e`, and `z ≤ e` when the selector is on. -/
def maximumChoiceRows (slack : Number) (z : Polynomial) (high : Number) (c : Choice) :
    List (Except Error Row) :=
  [do let _ ← bigM slack high c.lower
      let d ← z.sub c.operand
      pure { tag := "ge" ++ toString c.number, lhs := d, relation := .atLeast },
   do let m ← bigM slack high c.lower
      let d ← z.sub c.operand
      let lhs ← d.add (← c.selector.scale m)
      pure { tag := "sel" ++ toString c.number, lhs, relation := .atMost, rhs := m }]

/-- `z ≤ e`, and `z ≥ e` when the selector is on. -/
def minimumChoiceRows (slack : Number) (z : Polynomial) (low : Number) (c : Choice) :
    List (Except Error Row) :=
  [do let _ ← bigM slack c.upper low
      let d ← z.sub c.operand
      pure { tag := "le" ++ toString c.number, lhs := d, relation := .atMost },
   do let m ← bigM slack c.upper low
      let d ← z.sub c.operand
      let lhs ← d.sub (← c.selector.scale m)
      pure { tag := "sel" ++ toString c.number, lhs, relation := .atLeast, rhs := m.neg }]

/-- One row per operand that compares it with `z`. -/
def operandRows (tag : String) (relation : Relation) (z : Polynomial) :
    Nat → List Polynomial → List (Except Error Row)
  | _, [] => []
  | k, e :: rest =>
    (do pure { tag := tag ++ toString k, lhs := ← z.sub e, relation })
      :: operandRows tag relation z (k + 1) rest

/-- `z` is at most every operand, and at least their sum less all but one. -/
def conjunctionRows (z : Polynomial) (operands : List Polynomial) : List (Except Error Row) :=
  operandRows "le" .atMost z 1 operands ++
    [do pure { tag := "all", lhs := ← z.sub (← total operands), relation := .atLeast
               rhs := .int (1 - Int.ofNat operands.length) }]

/-- `z` is at least every operand, and at most their sum. -/
def disjunctionRows (z : Polynomial) (operands : List Polynomial) : List (Except Error Row) :=
  operandRows "ge" .atLeast z 1 operands ++
    [do pure { tag := "any", lhs := ← z.sub (← total operands), relation := .atMost }]

/-- `cond = 1` pins `z` to the first branch, `cond = 0` to the second. Each branch comes with its
bounds. -/
def choiceRows (slack : Number) (z cond : Polynomial) (low high : Number)
    (thenBranch elseBranch : Polynomial) (thenBounds elseBounds : Number × Number) :
    List (Except Error Row) :=
  [do let m ← bigM slack high thenBounds.1
      let d ← z.sub thenBranch
      pure { tag := "then_ub", lhs := ← d.add (← cond.scale m), relation := .atMost, rhs := m },
   do let m ← bigM slack thenBounds.2 low
      let d ← z.sub thenBranch
      pure { tag := "then_lb", lhs := ← d.sub (← cond.scale m), relation := .atLeast
             rhs := m.neg },
   do let m ← bigM slack high elseBounds.1
      let d ← z.sub elseBranch
      pure { tag := "else_ub", lhs := ← d.sub (← cond.scale m), relation := .atMost },
   do let m ← bigM slack elseBounds.2 low
      let d ← z.sub elseBranch
      pure { tag := "else_lb", lhs := ← d.add (← cond.scale m), relation := .atLeast }]

/-- A portion `w` lies within its segment if the selector `y` is on, and is zero otherwise. -/
def segmentRows (k : Nat) (y w : Polynomial) (low high : Value) : List (Except Error Row) :=
  [do let bound ← y.mul (← Polynomial.ofValue low)
      pure { tag := "lo" ++ toString k, lhs := ← w.sub bound, relation := .atLeast },
   do let bound ← y.mul (← Polynomial.ofValue high)
      pure { tag := "hi" ++ toString k, lhs := ← w.sub bound, relation := .atMost }]

/-- One segment is selected, and the portions make up the operand. -/
def linkRows (selectors portions : List Polynomial) (e : Polynomial) : List (Except Error Row) :=
  [oneRow selectors,
   do pure { tag := "link", lhs := ← (← total portions).sub e, relation := .equal }]

/-- The family that an operator's auxiliary variables belong to, and the number of this use. -/
def nextFamily (config : Config) (operation : String) : Assembly (String × Nat) := do
  let family := config.auxiliaryWord.text ++ "_" ++ operation
  pure (family, ← Assembly.nextIndex family)

/-- Check a bound, which may be missing. -/
def checkGiven : Option Number → Except Error (Option Number)
  | none => .ok none
  | some x => do pure (some (← Bound.ofNumber x))

/-- Declare an auxiliary variable. -/
def introduce (config : Config) (family : String) (index : List Nat) (kind : VariableKind)
    (lower upper : Option Number) : Assembly Polynomial :=
  Assembly.transaction do
    let key : VarKey := ⟨family, index.map fun (n : Nat) => .int n⟩
    let lower ← checkGiven lower
    let upper ← checkGiven upper
    Bound.check key.text kind lower upper
    let v ← Assembly.addVariable config key kind lower upper .none true
    pure (Polynomial.ofKey v.key)

/-- Declare the rows of an operator. -/
def declareRows (config : Config) (family : String) (n : Nat) (rows : List (Except Error Row)) :
    Assembly Unit :=
  rows.forM fun (row : Except Error Row) => do
    let row ← row
    let name := family ++ "_" ++ toString n ++ "_" ++ row.tag
    let _ ← Assembly.addConstraint config (.str name) row.lhs row.relation
      (Polynomial.const row.rhs) .none

/-- The absolute value of an operand. It is enough that the result is no smaller than the operand
and its negative. -/
def absolute (config : Config) (e : Polynomial) : Assembly Polynomial := do
  if e.isConstant then pure (Polynomial.const e.constant.abs)
  else
    let (lower, upper) ← (← Assembly.model).boundsOf e
    if Number.lessEq (.int 0) lower then pure e
    else if upper.lessEq (.int 0) then e.neg
    else
      let (family, n) ← nextFamily config "abs"
      let a ← introduce config family [n] .continuous (some (.int 0)) none
      declareRows config family n (absoluteRows a e)
      pure a

/-- A binary variable for each operand. -/
def introduceSelectors (config : Config) (family : String) (n count : Nat) :
    Assembly (List Polynomial) :=
  (List.range count).mapM fun k =>
    introduce config (family ++ "_sel") [n, k + 1] .binary none none

/-- The first of the numbers that no later one beats. -/
def best (better : Number → Number → Number) : List Number → Number
  | [] => .int 0
  | x :: rest => rest.foldl better x

/-- An extremum of operands, the first that `better` keeps. A selector for each operand says which
one it is, and the rows compare the operands with the result. -/
def selection (config : Config) (operands : List Polynomial) (label : String)
    (better : Number → Number → Number)
    (rows : Number → Number → Polynomial → Choice → List (Except Error Row)) :
    Assembly Polynomial := do
  match operands with
  | [] => Assembly.refuse (.noOperands label)
  | [e] => pure e
  | _ =>
    if operands.all Polynomial.isConstant then
      pure (Polynomial.const (best better (operands.map (·.constant))))
    else
      let m ← Assembly.model
      let ranges ← operands.mapM fun e => m.finiteBoundsOf e label
      let low := best better (ranges.map (·.1))
      let high := best better (ranges.map (·.2))
      let (family, n) ← nextFamily config label
      let z ← introduce config family [n] .continuous (some low) (some high)
      let selectors ← introduceSelectors config family n operands.length
      declareRows config family n
        (oneRow selectors :: (choices 1 operands selectors ranges).flatMap (rows low high z))
      pure z

def maximum (config : Config) (operands : List Polynomial) : Assembly Polynomial :=
  selection config operands "max" Number.maxFirst
    fun _ high z => maximumChoiceRows config.bigMSlack z high

def minimum (config : Config) (operands : List Polynomial) : Assembly Polynomial :=
  selection config operands "min" Number.minFirst
    fun low _ z => minimumChoiceRows config.bigMSlack z low

/-- Refuse operands of a connective that are not boolean. -/
def checkBooleans (label : String) (operands : List Polynomial) : Assembly Unit := do
  if operands.isEmpty then Assembly.refuse (.noOperands label)
  let m ← Assembly.model
  operands.forM fun e => do
    if ← m.isBoolean e then pure () else Assembly.refuse (.operandNotBoolean label e)

/-- A connective of boolean operands, whose rows compare them with the result. -/
def connective (config : Config) (operands : List Polynomial) (label : String)
    (rows : Polynomial → List (Except Error Row)) : Assembly Polynomial := do
  checkBooleans label operands
  match operands with
  | [e] => pure e
  | _ =>
    let (family, n) ← nextFamily config label
    let z ← introduce config family [n] .binary none none
    declareRows config family n (rows z)
    pure z

def conjunction (config : Config) (operands : List Polynomial) : Assembly Polynomial :=
  connective config operands "and" (conjunctionRows · operands)

def disjunction (config : Config) (operands : List Polynomial) : Assembly Polynomial :=
  connective config operands "or" (disjunctionRows · operands)

/-- The first branch where the condition is 1, the second where it is 0. -/
def choice (config : Config) (cond thenBranch elseBranch : Polynomial) : Assembly Polynomial := do
  let m ← Assembly.model
  if !(← m.isBoolean cond) then Assembly.refuse (.conditionNotBoolean cond)
  if cond.isConstant then pure (if cond.constant.truthy then thenBranch else elseBranch)
  else if thenBranch.isConstant && elseBranch.isConstant then
    let step ← orOverflow (thenBranch.constant.sub elseBranch.constant)
    elseBranch.add (← cond.scale step)
  else
    let thenBounds ← m.finiteBoundsOf thenBranch "if-then-else"
    let elseBounds ← m.finiteBoundsOf elseBranch "if-then-else"
    let low := Number.minFirst thenBounds.1 elseBounds.1
    let high := Number.maxFirst thenBounds.2 elseBounds.2
    let (family, n) ← nextFamily config "if"
    let z ← introduce config family [n] .continuous (some low) (some high)
    declareRows config family n
      (choiceRows config.bigMSlack z cond low high thenBranch elseBranch thenBounds elseBounds)
    pure z

/-- The lower bound of a portion: the start of its segment, but not above zero. -/
def portionLower (low : Value) : Except Error Value := do
  if ← orUnsupported (Value.ordered? .less low (.int 0)) then pure low else pure (.int 0)

/-- The upper bound of a portion: the end of its segment, but not below zero. -/
def portionUpper (high : Value) : Except Error Value := do
  if ← orUnsupported (Value.ordered? .greater high (.int 0)) then pure high else pure (.int 0)

/-- The value at a position that must be there. -/
def orOutOfRange : Option Value → Except Error Value
  | some value => .ok value
  | none => breakDown .outOfRange

/-- What a piecewise linear function has built up: selectors, portions and the result. -/
structure Segments where
  selectors : List Polynomial := []
  portions : List Polynomial := []
  result : Polynomial := Polynomial.const (.int 0)

/-- Declare the variables and rows of segment `k`, and add what it contributes. -/
def addSegment (config : Config) (family : String) (n k : Nat) (low high : Value)
    (slope intercept : Option Value) (done : Segments) : Assembly Segments := do
  let y ← introduce config (family ++ "_sel") [n, k] .binary none none
  let lower ← portionLower low
  let upper ← portionUpper high
  let w ← introduce config (family ++ "_seg") [n, k] .continuous
    (← Bound.ofValue lower) (← Bound.ofValue upper)
  declareRows config family n (segmentRows k y w low high)
  let slope ← orOutOfRange slope
  let rising ← done.result.add (← w.mul (← Polynomial.ofValue slope))
  let intercept ← orOutOfRange intercept
  let result ← rising.add (← y.mul (← Polynomial.ofValue intercept))
  pure { selectors := done.selectors ++ [y], portions := done.portions ++ [w], result }

/-- Add all segments, from number `k` on. -/
def addSegments (config : Config) (family : String) (n : Nat) :
    Nat → List Value → List Value → List Value → Segments → Assembly Segments
  | k, low :: high :: points, slopes, intercepts, done => do
    let done ← addSegment config family n k low high slopes.head? intercepts.head? done
    addSegments config family n (k + 1) (high :: points) slopes.tail intercepts.tail done
  | _, _, _, _, done => pure done

/-- A piecewise linear function of an operand that lies between its outer breakpoints. -/
def piecewise (config : Config) (e : Polynomial) (breakpoints slopes intercepts : List Value) :
    Assembly Polynomial := do
  let (family, n) ← nextFamily config "pwl"
  let segments ← addSegments config family n 1 breakpoints slopes intercepts {}
  declareRows config family n (linkRows segments.selectors segments.portions e)
  pure segments.result

end Linearization

end LinearProgram
