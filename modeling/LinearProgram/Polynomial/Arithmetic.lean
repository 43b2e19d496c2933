import LinearProgram.Error

/-!
# Arithmetic of polynomials

Sums keep the order of the left operand's terms and append the new ones of the right. A product
needs a constant factor and a quotient a constant divisor. The only other failure is an integer too
large to meet a double.
-/

namespace LinearProgram.Polynomial

/-- Add to the coefficient of an instance, which is zero if it has no term yet. -/
def addTerm (key : VarKey) (coefficient : Number) :
    List (VarKey × Number) → Except Error (List (VarKey × Number))
  | [] => do
    let x ← orOverflow (Number.add (.int 0) coefficient)
    pure [(key, x)]
  | term :: rest =>
    if term.1.equal key then do
      let x ← orOverflow (term.2.add coefficient)
      pure ((term.1, x) :: rest)
    else do
      let others ← addTerm key coefficient rest
      pure (term :: others)

/-- A sum; terms of one variable are joined. -/
def add (p q : Polynomial) : Except Error Polynomial := do
  let terms ← q.terms.foldlM (fun terms term => addTerm term.1 term.2 terms) p.terms
  let constant ← orOverflow (p.constant.add q.constant)
  pure (ofTerms terms constant)

/-- A multiple, term by term. -/
def scale (p : Polynomial) (factor : Number) : Except Error Polynomial := do
  let terms ← p.terms.mapM fun term => do
    let x ← orOverflow (term.2.mul factor)
    pure (term.1, x)
  let constant ← orOverflow (p.constant.mul factor)
  pure (ofTerms terms constant)

def neg (p : Polynomial) : Except Error Polynomial := p.scale (.int (-1))

def sub (p q : Polynomial) : Except Error Polynomial := do p.add (← q.neg)

/-- A product, one factor of which must be constant. -/
def mul (p q : Polynomial) : Except Error Polynomial :=
  if p.isConstant then q.scale p.constant
  else if q.isConstant then p.scale q.constant
  else raise (.product p q)

/-- A quotient by a constant. -/
def div (p q : Polynomial) : Except Error Polynomial :=
  if !q.isConstant then raise (.divisor q)
  else if q.constant.isZero then raise (.quotientByZero p)
  else do p.scale (← orOverflow (Number.div (.int 1) q.constant))

/-- Set the coefficient of an instance; one that is already there keeps its place. -/
def setTerm (key : VarKey) (coefficient : Number) :
    List (VarKey × Number) → List (VarKey × Number)
  | [] => [(key, coefficient)]
  | term :: rest =>
    if term.1.equal key then (term.1, coefficient) :: rest
    else term :: setTerm key coefficient rest

/-- The polynomial with the given coefficients, the last one given for an instance. -/
def ofCoefficients (terms : List (VarKey × Number)) (constant : Number) :
    Except Error Polynomial :=
  if terms.all fun term => term.1.isKey then
    .ok (ofTerms (terms.foldl (fun done term => setTerm term.1 term.2 done) []) constant)
  else breakDown .unsupported

/-- The number a polynomial without variables is, as a polynomial; truth values are refused. -/
def ofNumber : Number → Except Error Polynomial
  | .bool b => raise (.notLinear (Number.bool b).text)
  | x => .ok (const x)

/-- A value as a polynomial: only plain numbers are. -/
def ofValue : Value → Except Error Polynomial
  | .number x => ofNumber x
  | .cell (.int n) => .ok (const (.int n))
  | .cell (.float x) => .ok (const (.float x))
  | value => raise (.notLinear value.quoted)

/-- The value at an assignment of numbers to instances, which must cover the polynomial. -/
def evaluate (p : Polynomial) (value? : VarKey → Option Number) : Except Error Number := do
  let sum ← p.terms.foldlM (fun (sum : Number) term => do
    match value? term.1 with
    | some x => orOverflow (sum.add (← orOverflow (term.2.mul x)))
    | none => breakDown .missingKey) (.int 0)
  orOverflow (p.constant.add sum)

/-- One step of an interval sum: a positive coefficient keeps the ends, any other swaps them. -/
def extendBounds (bounds : Number × Number) (coefficient : Number) (range : Number × Number) :
    Except Error (Number × Number) := do
  let (low, high) := if Number.less (.int 0) coefficient then range else (range.2, range.1)
  let lower ← orOverflow (bounds.1.add (← orOverflow (coefficient.mul low)))
  let upper ← orOverflow (bounds.2.add (← orOverflow (coefficient.mul high)))
  pure (lower, upper)

/-- The interval of a polynomial's values, given the bounds of its variables. An end that is not a
number makes the interval the whole line. -/
def bounds (p : Polynomial) (boundsOf : VarKey → Number × Number) :
    Except Error (Number × Number) := do
  let (lower, upper) ← p.terms.foldlM
    (fun bounds term => extendBounds bounds term.2 (boundsOf term.1)) (p.constant, p.constant)
  let l ← orOverflow lower.toFloat?
  if l.isNaN then return (.negInfinity, .infinity)
  let u ← orOverflow upper.toFloat?
  if u.isNaN then return (.negInfinity, .infinity)
  pure (lower, upper)

end LinearProgram.Polynomial
