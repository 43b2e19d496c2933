import LinearProgram.Document
import LinearProgram.Host
import LinearProgram.Polynomial.Arithmetic
import LinearProgram.Value.Arithmetic

/-!
# Building from loosely typed arguments

Callers who build trees by hand may give numbers and text in the place of trees and pairs in the
place of generators, and mix numbers with polynomials (`Argument`). The operators apply to whichever
of their two operands is a tree or a polynomial.
-/

namespace LinearProgram

/-- What a caller may give: data, a tree, a generator or filter, a polynomial, a direction, or a
sequence in which such things occur. -/
inductive Argument where
  | value (v : Value)
  | expr (e : Expr)
  | item (g : GeneratorItem)
  /-- A filter whose condition is data instead of a tree. -/
  | dataFilter (v : Value)
  | polynomial (p : Polynomial)
  | direction (d : Direction)
  | list (items : List Argument)
  | tuple (items : List Argument)
  deriving Inhabited

namespace Argument

mutual

/-- The written form, if there is one. -/
def text? : Argument → Option String
  | value v => some v.quoted
  | expr e => e.text?
  | item g => Expr.textItem? g
  | dataFilter v => some ("Filter(expr=" ++ v.quoted ++ ")")
  | polynomial p => some p.text
  | direction d => some ("<Direction." ++ d.word.toUpper ++ ": " ++ Quoted.quote d.word ++ ">")
  | list items => do pure ("[" ++ Value.commas (← textAll? items) ++ "]")
  | tuple items => do pure (Value.tupleText (← textAll? items))

def textAll? : List Argument → Option (List String)
  | [] => some []
  | a :: rest => do
    let first ← text? a
    let others ← textAll? rest
    pure (first :: others)

end

/-- Fail with a cause that shows the argument. -/
def refuse {α : Type} (a : Argument) (cause : String → Cause) : Except Error α := do
  let shown ← orUnsupported a.text?
  raise (cause shown)

/-- A tree, or a number or text as a literal. -/
def toExpr : Argument → Except Error Expr
  | expr e => .ok e
  | value (.number x) | value (.cell x) => .ok (.literal (.number x))
  | value (.str s) => .ok (.literal (.str s))
  | a => a.refuse .notExpression

/-- Data, or a tree that evaluates to it. -/
def toDatum : Argument → Except Error Datum
  | value v => .ok (.data v)
  | expr e => .ok (.tree e)
  | _ => breakDown .unsupported

/-- A generator or filter, a pair of a name and a domain, or a tree as a filter. -/
def toGenerator : Argument → Except Error GeneratorItem
  | item g => .ok g
  | dataFilter v => .ok (.filter (.literal v))
  | expr e => .ok (.filter e)
  | value (.tuple [.str name, domain]) => .ok (.ranging name (.data domain))
  | tuple [value (.str name), domain] => do pure (.ranging name (← domain.toDatum))
  | a => a.refuse .notGenerator

/-- A polynomial, or a number as one. -/
def toPolynomial : Argument → Except Error Polynomial
  | polynomial p => .ok p
  | value v => Polynomial.ofValue v
  | a => a.refuse .notLinear

/-- The items of a sequence. -/
def items : Argument → Except Error (List Argument)
  | list items | tuple items => .ok items
  | value v => do pure ((← v.items).map value)
  | _ => breakDown .unsupported

/-- The items of a sequence of data. -/
def dataItems : Argument → Except Error (List Value)
  | value v => v.items
  | _ => breakDown .unsupported

def toText : Argument → Except Error String
  | value (.str s) => .ok s
  | _ => breakDown .unsupported

end Argument

namespace Build

open Argument

def exprs (args : Argument) : Except Error (List Expr) := do (← args.items).mapM toExpr

def reference (name : Value) (indices : List Argument) : Except Error Expr := do
  pure (.ref name (← indices.mapM toExpr))

/-- A reference whose text indices are bare names. -/
def namedReference (name : Value) (indices : List Argument) : Except Error Expr :=
  reference name (indices.map fun
    | .value (.str s) => .expr (.symbol s)
    | a => a)

def lookup (container key : Argument) (dot : Bool) : Except Error Expr := do
  let c ← container.toExpr
  let k ← key.toExpr
  Expr.lookupStep c k dot

def arith (op : Argument) (left right : Argument) : Except Error Expr := do
  let l ← left.toExpr
  let r ← right.toExpr
  match op with
  | .value (.str s) =>
    match Arithmetic.ofSign? s with
    | some sign => pure (.arith sign l r)
    | none => raise (.unknownArithmetic s)
  | .value v => raise (.unknownArithmetic v.text)
  | _ => op.refuse .unknownArithmetic

def compare (op : Argument) (left right : Argument) : Except Error Expr := do
  let l ← left.toExpr
  let r ← right.toExpr
  match op with
  | .value (.str s) =>
    match Comparison.ofSign? s with
    | some sign => pure (.compare sign l r)
    | none => raise (.unknownComparison s)
  | .value v => raise (.unknownComparison v.text)
  | _ => op.refuse .unknownComparison

def comparison (op : Comparison) (left right : Argument) : Except Error Expr := do
  let l ← left.toExpr
  let r ← right.toExpr
  pure (.compare op l r)

def range (start stop : Argument) : Except Error Expr := do
  let a ← start.toExpr
  let b ← stop.toExpr
  pure (.range a b)

def negate (operand : Argument) : Except Error Expr := do pure (.negate (← operand.toExpr))

def abs (operand : Argument) : Except Error Expr := do pure (.abs (← operand.toExpr))

def each (pattern : Argument) : Except Error Expr := do pure (.each (← pattern.toExpr))

def sum (args : Argument) : Except Error Expr := do pure (.sum (← exprs args))

def aggregate (op : Aggregate) (args : Argument) : Except Error Expr := do
  pure (.aggregate op (← exprs args))

def sumOver (body generators : Argument) : Except Error Expr := do
  let b ← body.toExpr
  let g ← (← generators.items).mapM toGenerator
  pure (.sumOver b g)

def ifThenElse (cond thenBranch elseBranch : Argument) : Except Error Expr := do
  let c ← cond.toExpr
  let t ← thenBranch.toExpr
  let e ← elseBranch.toExpr
  pure (.ifThenElse c t e)

def piecewise (operand breakpoints slopes intercepts : Argument) : Except Error Expr := do
  let e ← operand.toExpr
  let b ← breakpoints.dataItems
  let s ← slopes.dataItems
  let i ← intercepts.dataItems
  Expr.piecewiseOf e b s i

end Build

namespace Argument

/-- What an operator does with numbers, with polynomials and with trees. -/
structure Operation where
  sign : Arithmetic
  values : Value → Value → Except Error Value
  polynomials : Polynomial → Polynomial → Except Error Polynomial

/-- Apply an arithmetic operator. A polynomial on the left decides, then a tree on the left, then
the right operand; nothing is divided by a polynomial from the left. -/
def operate (op : Operation) (left right : Argument) : Except Error Argument :=
  match left, right with
  | polynomial p, _ => do pure (polynomial (← op.polynomials p (← right.toPolynomial)))
  | expr l, _ => do pure (expr (.arith op.sign l (← right.toExpr)))
  | _, expr r => do pure (expr (.arith op.sign (← left.toExpr) r))
  | _, polynomial q =>
    match op.sign with
    | .div => breakDown .unsupported
    | .sub => do pure (polynomial (← op.polynomials (← left.toPolynomial) q))
    | _ => do pure (polynomial (← op.polynomials q (← left.toPolynomial)))
  | value x, value y => do pure (value (← op.values x y))
  | _, _ => breakDown .unsupported

def add : Argument → Argument → Except Error Argument :=
  operate ⟨.add, Value.add, Polynomial.add⟩

def sub : Argument → Argument → Except Error Argument :=
  operate ⟨.sub, Value.sub, Polynomial.sub⟩

def mul : Argument → Argument → Except Error Argument :=
  operate ⟨.mul, Value.mul, Polynomial.mul⟩

def div : Argument → Argument → Except Error Argument :=
  operate ⟨.div, Value.div, Polynomial.div⟩

def neg : Argument → Except Error Argument
  | polynomial p => do pure (polynomial (← p.neg))
  | expr e => .ok (expr (.negate e))
  | value (.number x) => .ok (value (.number x.neg))
  | _ => breakDown .unsupported

/-- The comparison that holds of swapped operands. -/
def swapped : Comparison → Comparison
  | .eq => .eq
  | .ne => .ne
  | .le => .ge
  | .ge => .le
  | .lt => .gt
  | .gt => .lt

/-- Compare by order. A tree on the right only is put on the left. -/
def order (host : Host) (op : Comparison) (left right : Argument) : Except Error Argument :=
  match left, right with
  | expr l, _ => do pure (expr (.compare op l (← right.toExpr)))
  | _, expr r => do pure (expr (.compare (swapped op) r (← left.toExpr)))
  | value a, value b => do
    pure (value (← host.compareBy (breakDown .unsupported) op a b))
  | _, _ => breakDown .unsupported

/-- Equality of two arguments: polynomials equal numbers with the same value. -/
def equal : Argument → Argument → Bool
  | polynomial p, polynomial q => p.equal q
  | polynomial p, value (.number x) | value (.number x), polynomial p =>
    p.equal (Polynomial.const x)
  | value a, value b => a.equal b
  | _, _ => false

end Argument

end LinearProgram
