import LinearProgram.Polynomial.Arithmetic
import LinearProgram.Reference

/-!
# Linear trees

`Expr.fold` turns a tree of references, arithmetic and plain sums into a polynomial. Constant
subtrees are evaluated as a whole. Every other node is refused.
-/

namespace LinearProgram

/-- Join two polynomials by an arithmetic operator; `source` is the whole expression. -/
def joinPolynomials (source : Expr) (op : Arithmetic) (left right : Polynomial) :
    Except Error Polynomial :=
  match op with
  | .add => left.add right
  | .sub => left.sub right
  | .mul => left.mul right
  | .div =>
    if right.isConstant && right.constant.isZero then raise (.divisionByZero source)
    else left.div right

/-- The constant polynomial of a constant tree. -/
def Expr.foldConstant (e : Expr) (context : Context) : Except Error Polynomial := do
  Polynomial.ofValue (← e.evaluate context)

/-- The polynomial of a reference. -/
def foldReference (registry : Option Model) (name : Value) (indices : List Expr)
    (context : Context) : Except Error Polynomial := do
  pure (Polynomial.ofKey (← resolveReference registry name indices context))

mutual

/-- The polynomial of a linear tree. With a model, references must name declared instances. -/
def Expr.fold (registry : Option Model) (context : Context) : Expr → Except Error Polynomial
  | .ref name indices =>
    if (Expr.ref name indices).isConstant then (Expr.ref name indices).foldConstant context
    else foldReference registry name indices context
  | .arith op left right =>
    let source := Expr.arith op left right
    if source.isConstant then source.foldConstant context
    else do
      let l ← left.fold registry context
      let r ← right.fold registry context
      joinPolynomials source op l r
  | .negate operand =>
    if (Expr.negate operand).isConstant then (Expr.negate operand).foldConstant context
    else do (← operand.fold registry context).neg
  | .sum args =>
    if (Expr.sum args).isConstant then (Expr.sum args).foldConstant context
    else foldSum registry context args (Polynomial.const (.int 0))
  | e => if e.isConstant then e.foldConstant context else raise (.notFoldable e)

def foldSum (registry : Option Model) (context : Context) :
    List Expr → Polynomial → Except Error Polynomial
  | [], total => .ok total
  | e :: rest, total => do
    let p ← e.fold registry context
    foldSum registry context rest (← total.add p)

end

end LinearProgram
