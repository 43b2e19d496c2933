/-!
# Doubles as exact numbers

A double is NaN, an infinity, or the exact number `± m · 2^q`. Reading a decimal, converting an
integer and dividing two integers are all instances of the one rounding function `nearest`, to the
nearest double with ties to the even mantissa.
-/

namespace LinearProgram

/-- What a double stands for: a finite one is `± mantissa · 2 ^ exponent`. -/
inductive Double where
  | nan
  | infinite (negative : Bool)
  | finite (negative : Bool) (mantissa : Nat) (exponent : Int)
  deriving Repr, DecidableEq, Inhabited

namespace Double

/-- Decode the three bit fields of a double. The smallest exponent is shared by the numbers with
and without the leading mantissa bit. -/
def ofFloat (x : Float) : Double :=
  let bits := x.toBits.toNat
  let negative := bits / Nat.pow 2 63 == 1
  let field := bits / Nat.pow 2 52 % 2048
  let fraction := bits % Nat.pow 2 52
  if field = 2047 then
    if fraction = 0 then .infinite negative else .nan
  else if field = 0 then .finite negative fraction (-1074)
  else .finite negative (Nat.pow 2 52 + fraction) (Int.ofNat field - 1075)

/-- The magnitude of a finite double as a quotient of natural numbers. -/
def magnitude (mantissa : Nat) (exponent : Int) : Nat × Nat :=
  if 0 ≤ exponent then (mantissa * Nat.pow 2 exponent.toNat, 1)
  else (mantissa, Nat.pow 2 (-exponent).toNat)

/-- The exact value as numerator and positive denominator; `none` for NaN and the infinities. -/
def ratio? : Double → Option (Int × Nat)
  | .finite negative mantissa exponent =>
    let (num, den) := magnitude mantissa exponent
    some (if negative then -(num : Int) else num, den)
  | _ => none

/-- The integer a double stands for, if its value is one. -/
def toInt? (d : Double) : Option Int :=
  match d.ratio? with
  | some (num, den) => if num % (den : Int) = 0 then some (num / (den : Int)) else none
  | none => none

/-- How an integer compares with a double, exactly; `none` only for NaN. -/
def compareInt (n : Int) : Double → Option Ordering
  | .nan => none
  | .infinite negative => some (if negative then .gt else .lt)
  | .finite negative mantissa exponent =>
    let (num, den) := magnitude mantissa exponent
    some (compare (n * (den : Int)) (if negative then -(num : Int) else num))

/-- A quotient rounded to the nearest integer, ties to the even one. -/
def roundDiv (num den : Nat) : Nat :=
  let quotient := num / den
  let rest := num % den
  if 2 * rest < den then quotient
  else if den < 2 * rest then quotient + 1
  else if quotient % 2 = 0 then quotient
  else quotient + 1

/-- `num / den` divided by `2 ^ exponent`, again as a quotient. -/
def unscale (num den : Nat) (exponent : Int) : Nat × Nat :=
  if 0 ≤ exponent then (num, den * Nat.pow 2 exponent.toNat)
  else (num * Nat.pow 2 (-exponent).toNat, den)

/-- The exponent at which `num / den` has a mantissa of 53 bits, or the smallest exponent. -/
def exponentFor (num den : Nat) : Int :=
  let estimate : Int := Int.ofNat num.log2 - Int.ofNat den.log2 - 53
  let (top, bottom) := unscale num den estimate
  max (if top / bottom < Nat.pow 2 53 then estimate else estimate + 1) (-1074)

/-- The bits of the double nearest to `num / den`; `none` if it lies beyond the largest double. -/
def nearestBits (num den : Nat) : Option Nat :=
  if num = 0 then some 0
  else
    let exponent := exponentFor num den
    let (top, bottom) := unscale num den exponent
    let mantissa := roundDiv top bottom
    let bits :=
      if mantissa < Nat.pow 2 52 then mantissa
      else (exponent + 1075).toNat * Nat.pow 2 52 + (mantissa - Nat.pow 2 52)
    if bits < 2047 * Nat.pow 2 52 then some bits else none

/-- The double nearest to `± num / den`; `none` if it lies beyond the largest double. -/
def nearest (negative : Bool) (num den : Nat) : Option Float :=
  (nearestBits num den).map fun bits =>
    Float.ofBits (UInt64.ofNat (if negative then bits + Nat.pow 2 63 else bits))

def infinity (negative : Bool) : Float :=
  Float.ofBits (if negative then 0xFFF0000000000000 else 0x7FF0000000000000)

def notANumber : Float := Float.ofBits 0x7FF8000000000000

/-- The double nearest to an integer; `none` if the integer is too large. -/
def ofInt? (n : Int) : Option Float := nearest (n < 0) n.natAbs 1

/-- The quotient of two integers, rounded once. The sign of a zero quotient follows the operands'
signs. A zero divisor has no quotient. -/
def divide? (a b : Int) : Option Float :=
  if b = 0 then none else nearest ((a < 0) != (b < 0)) a.natAbs b.natAbs

end Double

end LinearProgram
