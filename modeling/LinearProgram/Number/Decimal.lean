import LinearProgram.Number.Double

/-!
# Decimals and doubles

A decimal is `digits · 10 ^ exponent`. `Decimal.shortest` finds the decimal with the fewest digits
that reads back as a given double: for each number of digits only the two neighbours of the double
on that grid can lie in the interval of numbers that round to it. `FloatLayout` holds the decisions
of the written form. All arithmetic is on natural numbers.
-/

namespace LinearProgram

/-- The number `digits · 10 ^ exponent`. -/
structure Decimal where
  digits : Nat
  exponent : Int
  deriving Repr, DecidableEq, Inhabited

namespace Decimal

/-- How `d · 10 ^ p` compares with `c · 2 ^ s`. -/
def compareBinary (d : Nat) (p : Int) (c : Nat) (s : Int) : Ordering :=
  compare (d * Nat.pow 10 p.toNat * Nat.pow 2 (-s).toNat)
    (c * Nat.pow 2 s.toNat * Nat.pow 10 (-p).toNat)

/-- The integer part of `(c · 2 ^ s) / 10 ^ p`. -/
def floorBinary (c : Nat) (s p : Int) : Nat :=
  (c * Nat.pow 2 s.toNat * Nat.pow 10 (-p).toNat) / (Nat.pow 10 p.toNat * Nat.pow 2 (-s).toNat)

/-- Raise `k`, at most `fuel` times, while `10 ^ k ≤ num / den`. -/
def raiseOrder (num den : Nat) : Nat → Int → Int
  | 0, k => k
  | fuel + 1, k =>
    if Nat.pow 10 k.toNat * den ≤ num * Nat.pow 10 (-k).toNat then
      raiseOrder num den fuel (k + 1)
    else k

/-- The least `k` with `num / den < 10 ^ k`, for a positive quotient. The start is at most three
steps too low, because the binary logarithms bound the quotient up to a factor of four. -/
def order (num den : Nat) : Int :=
  let lower : Int := Int.ofNat num.log2 - Int.ofNat den.log2 - 1
  raiseOrder num den 4 (lower * 30103 / 100000)

/-- The interval of numbers that round to a double, in quarters of its last mantissa place. The
lower half is narrower where the next smaller double has a finer grid. -/
structure RoundingInterval where
  below : Nat
  above : Nat
  closed : Bool
  deriving Repr, DecidableEq

/-- The numbers that round to `mantissa · 2 ^ exponent`. -/
def RoundingInterval.of (mantissa : Nat) (exponent : Int) : RoundingInterval where
  below := if mantissa = Nat.pow 2 52 ∧ -1074 < exponent then 4 * mantissa - 1 else 4 * mantissa - 2
  above := 4 * mantissa + 2
  closed := mantissa % 2 = 0

/-- Whether `d · 10 ^ p` lies in the interval, whose unit is `2 ^ s`. -/
def RoundingInterval.covers (interval : RoundingInterval) (s : Int) (d : Nat) (p : Int) : Bool :=
  match compareBinary d p interval.below s, compareBinary d p interval.above s with
  | .gt, .lt => true
  | .eq, _ => interval.closed
  | _, .eq => interval.closed
  | _, _ => false

/-- The closer of the two grid neighbours `d` and `d + 1` of `c · 2 ^ s`, the even one on a tie. -/
def closer (c : Nat) (s : Int) (d : Nat) (p : Int) : Nat :=
  match compareBinary (2 * d + 1) p (2 * c) s with
  | .lt => d + 1
  | .gt => d
  | .eq => if d % 2 = 0 then d else d + 1

/-- Try grids with ever more digits; `p` is the exponent of the current grid. -/
def search (mantissa : Nat) (exponent : Int) : Nat → Int → Decimal
  | 0, p => ⟨floorBinary (4 * mantissa) (exponent - 2) p, p⟩
  | fuel + 1, p =>
    let interval := RoundingInterval.of mantissa exponent
    let s := exponent - 2
    let low := floorBinary (4 * mantissa) s p
    match interval.covers s low p, interval.covers s (low + 1) p with
    | true, true => ⟨closer (4 * mantissa) s low p, p⟩
    | true, false => ⟨low, p⟩
    | false, true => ⟨low + 1, p⟩
    | false, false => search mantissa exponent fuel (p - 1)

def trim : Nat → Decimal → Decimal
  | 0, d => d
  | fuel + 1, d =>
    if d.digits ≠ 0 ∧ d.digits % 10 = 0 then trim fuel ⟨d.digits / 10, d.exponent + 1⟩ else d

/-- The decimal with the fewest digits that reads back as `mantissa · 2 ^ exponent`. -/
def shortest (mantissa : Nat) (exponent : Int) : Decimal :=
  if mantissa = 0 then ⟨0, 0⟩
  else
    let (num, den) := Double.magnitude mantissa exponent
    trim 18 (search mantissa exponent 17 (order num den - 1))

def digitText (n : Nat) : String := String.ofList (Nat.toDigits 10 n)

def digitCount (n : Nat) : Nat := (Nat.toDigits 10 n).length

/-- The double nearest to `± digits · 10 ^ exponent`, an infinity beyond the largest one. Exponents
that are out of range by their size alone are settled first, so that no huge power is formed. -/
def toFloat (negative : Bool) (d : Decimal) : Float :=
  let zero := Float.ofBits (if negative then 0x8000000000000000 else 0)
  if d.digits = 0 then zero
  else
    let size : Int := Int.ofNat (digitCount d.digits) + d.exponent
    if 400 < size then Double.infinity negative
    else if size < -400 then zero
    else
      (Double.nearest negative (d.digits * Nat.pow 10 d.exponent.toNat)
        (Nat.pow 10 (-d.exponent).toNat)).getD (Double.infinity negative)

/-- A positive quotient rounded to `count` significant digits, ties to even. -/
def rounded (num den count : Nat) : Decimal :=
  if num = 0 then ⟨0, 1 - Int.ofNat count⟩
  else
    let place := order num den - Int.ofNat count
    let digits := Double.roundDiv (num * Nat.pow 10 (-place).toNat) (den * Nat.pow 10 place.toNat)
    if digits = Nat.pow 10 count then ⟨digits / 10, place + 1⟩ else ⟨digits, place⟩

end Decimal

/-- The decisions of the written form of a double. -/
structure FloatLayout where
  /-- The least exponent of the first digit that is still written without exponent. -/
  leastPositional : Int
  /-- The first exponent above it that is written with an exponent. -/
  beyondPositional : Int
  /-- The least number of exponent digits. -/
  exponentWidth : Nat
  nanText : String
  infinityText : String

/-- Doubles are written positionally from `1e-4` up to `1e16`, an integral one keeps `.0`, and an
exponent has a sign and at least two digits. -/
def FloatLayout.standard : FloatLayout where
  leastPositional := -4
  beyondPositional := 16
  exponentWidth := 2
  nanText := "nan"
  infinityText := "inf"

namespace FloatLayout

def zeros (n : Nat) : String := String.ofList (List.replicate n '0')

/-- A signed exponent of at least the given width. -/
def exponentText (width : Nat) (mark : String) (e : Int) : String :=
  let digits := Decimal.digitText e.natAbs
  mark ++ (if e < 0 then "-" else "+") ++ zeros (width - digits.length) ++ digits

/-- The magnitude of a double: `digits` with the point after the first `point` of them, or with an
exponent. -/
def writeDecimal (layout : FloatLayout) (d : Decimal) : String :=
  let digits := Nat.toDigits 10 d.digits
  let lead : Int := Int.ofNat digits.length - 1 + d.exponent
  if layout.leastPositional ≤ lead ∧ lead < layout.beyondPositional then
    if lead < 0 then
      "0." ++ zeros (-lead - 1).toNat ++ String.ofList digits
    else
      let whole := lead.toNat + 1
      if digits.length ≤ whole then
        String.ofList digits ++ zeros (whole - digits.length) ++ ".0"
      else
        String.ofList (digits.take whole) ++ "." ++ String.ofList (digits.drop whole)
  else
    let fraction := digits.drop 1
    String.ofList (digits.take 1)
      ++ (if fraction.isEmpty then "" else "." ++ String.ofList fraction)
      ++ exponentText layout.exponentWidth "e" lead

/-- The text of a double in a layout. -/
def write (layout : FloatLayout) (x : Float) : String :=
  match Double.ofFloat x with
  | .nan => layout.nanText
  | .infinite negative => (if negative then "-" else "") ++ layout.infinityText
  | .finite negative mantissa exponent =>
    (if negative then "-" else "") ++ layout.writeDecimal (Decimal.shortest mantissa exponent)

end FloatLayout

end LinearProgram
