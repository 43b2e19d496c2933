import LinearProgram.Number.Decimal

/-!
# Numbers

A truth value, an integer of any size or a double. Integer arithmetic is exact, and as soon as a
double takes part the other operand is converted to the nearest double. An integer too large for
that has no such sum, product or quotient: the operations answer `none` there and nowhere else.
Comparisons never convert.
-/

namespace LinearProgram

/-- A truth value, an integer or a double. -/
inductive Number where
  | bool (b : Bool)
  | int (n : Int)
  | float (x : Float)
  deriving Repr, Inhabited

namespace Number

instance : OfNat Number n := ⟨.int n⟩

/-- The integer behind a truth value or an integer. -/
def toInt? : Number → Option Int
  | bool b => some (if b then 1 else 0)
  | int n => some n
  | float _ => none

/-- The nearest double; `none` for an integer beyond all of them. -/
def toFloat? : Number → Option Float
  | bool b => some (if b then 1.0 else 0.0)
  | int n => Double.ofInt? n
  | float x => some x

/-- Apply an exact operation to integers and a rounded one as soon as a double takes part. -/
def combine (exact : Int → Int → Int) (approximate : Float → Float → Float) (a b : Number) :
    Option Number :=
  match a.toInt?, b.toInt? with
  | some m, some n => some (int (exact m n))
  | _, _ => do
    let x ← a.toFloat?
    let y ← b.toFloat?
    pure (float (approximate x y))

def add (a b : Number) : Option Number := combine (· + ·) (· + ·) a b

def sub (a b : Number) : Option Number := combine (· - ·) (· - ·) a b

def mul (a b : Number) : Option Number := combine (· * ·) (· * ·) a b

/-- The quotient is a double, rounded once also for two integers. -/
def div (a b : Number) : Option Number :=
  match a.toInt?, b.toInt? with
  | some m, some n => (Double.divide? m n).map float
  | _, _ => do
    let x ← a.toFloat?
    let y ← b.toFloat?
    pure (float (x / y))

def neg : Number → Number
  | bool b => int (if b then -1 else 0)
  | int n => int (-n)
  | float x => float (-x)

def abs : Number → Number
  | bool b => int (if b then 1 else 0)
  | int n => int n.natAbs
  | float x => float x.abs

/-- How two numbers compare by exact value; `none` if one of them is NaN. -/
def compare? (a b : Number) : Option Ordering :=
  match a, b with
  | float x, float y =>
    if x < y then some .lt else if x == y then some .eq else if y < x then some .gt else none
  | float x, _ => do (← Double.compareInt (b.toInt?.getD 0) (Double.ofFloat x)).swap
  | _, float y => Double.compareInt (a.toInt?.getD 0) (Double.ofFloat y)
  | _, _ => some (compare (a.toInt?.getD 0) (b.toInt?.getD 0))

/-- Equality of value: `1`, `1.0` and the truth value are one number. -/
def equal (a b : Number) : Bool := a.compare? b == some .eq

/-- Whether a number is smaller; false for NaN. -/
def less (a b : Number) : Bool := a.compare? b == some .lt

/-- Whether a number is at most another; false for NaN. -/
def lessEq (a b : Number) : Bool :=
  match a.compare? b with
  | some .lt | some .eq => true
  | _ => false

def isZero (a : Number) : Bool := a.equal (int 0)

/-- Whether the number counts as true: everything but zero, so also NaN. -/
def truthy (a : Number) : Bool := !a.isZero

def isNaN : Number → Bool
  | float x => x.isNaN
  | _ => false

/-- The larger of two numbers, the first one if neither is larger. -/
def maxFirst (best candidate : Number) : Number := if best.less candidate then candidate else best

/-- The smaller of two numbers, the first one if neither is smaller. -/
def minFirst (best candidate : Number) : Number := if candidate.less best then candidate else best

/-- Whether the number is a whole one, and which. -/
def whole? : Number → Option Int
  | float x => (Double.ofFloat x).toInt?
  | a => a.toInt?

/-- Whether a number is neither infinite nor NaN. -/
def isFinite : Number → Bool
  | float x => x.isFinite
  | _ => true

/-- The positive infinity. -/
def infinity : Number := float (Double.infinity false)

def negInfinity : Number := float (Double.infinity true)

/-- The written form, for integers of any number of digits. -/
def text : Number → String
  | bool b => if b then "True" else "False"
  | int n => if n < 0 then "-" ++ Decimal.digitText n.natAbs else Decimal.digitText n.natAbs
  | float x => FloatLayout.standard.write x

def typeWord : Number → String
  | bool _ => "bool"
  | int _ => "int"
  | float _ => "float"

end Number

end LinearProgram
