import LinearProgram.Numeric.CellType
import LinearProgram.Text.Block

/-!
# Numbers lined up

The numbers of an array are written in one format, so that their points and signs line up. Doubles
have at most eight places, and fewer are padded with blanks. If they are very large, very small or
far apart, all of them have an exponent and equally many places. `ColumnLayout` holds these
decisions.
-/

namespace LinearProgram

namespace Decimal

/-- Drop all trailing zeros; zero itself has none. -/
def trimmed (d : Decimal) : Decimal :=
  if d.digits = 0 then ⟨0, 0⟩ else trim (digitCount d.digits) d

/-- The decimal of `mantissa · 2 ^ exponent` with at most so many places: the shortest one that
reads back if it has no more, else the nearest one. -/
def withPlaces (places mantissa : Nat) (exponent : Int) : Decimal :=
  let d := shortest mantissa exponent
  if -Int.ofNat places ≤ d.exponent then d
  else
    let (num, den) := Double.magnitude mantissa exponent
    trimmed ⟨Double.roundDiv (num * Nat.pow 10 places) den, -Int.ofNat places⟩

/-- The decimal of `mantissa · 2 ^ exponent` with at most so many digits: the shortest one that
reads back if it has no more, else the nearest one. -/
def withDigits (count mantissa : Nat) (exponent : Int) : Decimal :=
  let d := shortest mantissa exponent
  if digitCount d.digits ≤ count then d
  else
    let (num, den) := Double.magnitude mantissa exponent
    trimmed (rounded num den count)

/-- The exponent of the first digit. -/
def lead (d : Decimal) : Int :=
  if d.digits = 0 then 0 else Int.ofNat (digitCount d.digits) - 1 + d.exponent

/-- The digits before and after the point. -/
def parts (d : Decimal) : String × String :=
  if 0 ≤ d.exponent then (digitText (d.digits * Nat.pow 10 d.exponent.toNat), "")
  else
    let places := (-d.exponent).toNat
    let fraction := digitText (d.digits % Nat.pow 10 places)
    (digitText (d.digits / Nat.pow 10 places),
      FloatLayout.zeros (places - fraction.length) ++ fraction)

end Decimal

/-- When the doubles of an array are written with an exponent, and with how many places at most. -/
structure ColumnLayout where
  places : Nat
  /-- From this magnitude on there is an exponent. -/
  large : Float
  /-- Below this magnitude there is an exponent, zero apart. -/
  small : Float
  /-- If the greatest magnitude is more than so many times the least, there is an exponent. -/
  spread : Float

def ColumnLayout.standard : ColumnLayout where
  places := 8
  large := 1e8
  small := 0.0001
  spread := 1000.0

/-- Whether doubles are written with an exponent. Only the finite ones that are not zero decide. -/
def ColumnLayout.needsExponent (layout : ColumnLayout) (xs : List Float) : Bool :=
  match (xs.filter fun x => x.isFinite && x != 0.0).map Float.abs with
  | [] => false
  | x :: rest =>
    let greatest := rest.foldl (fun a b => if a < b then b else a) x
    let least := rest.foldl (fun a b => if b < a then b else a) x
    layout.large ≤ greatest || least < layout.small || layout.spread < greatest / least

/-- How the numbers of an array are written. -/
inductive ColumnFormat where
  | plain
  | padded (width : Nat)
  /-- With a point, after so many characters and before so many. -/
  | positional (whole fraction : Nat)
  /-- With an exponent of so many digits, after a point with so many places. -/
  | scientific (whole places exponent : Nat)
  deriving Repr, DecidableEq, Inhabited

namespace ColumnFormat

/-- The width that a number that is not finite asks for: the sign counts if one of them has it. -/
def oddWidth (xs : List Float) : Nat :=
  let odd := xs.filter fun x => !x.isFinite
  if odd.isEmpty then 0 else if odd.any (· < 0.0) then 4 else 3

def withSign (negative : Bool) (digits : String) : String :=
  if negative then "-" ++ digits else digits

/-- What a finite double asks for with a point: the characters before it and after it. -/
def positionalParts (layout : ColumnLayout) : Double → Option (String × String)
  | .finite negative mantissa exponent =>
    let (whole, fraction) := (Decimal.withPlaces layout.places mantissa exponent).parts
    some (withSign negative whole, fraction)
  | _ => none

/-- What a finite double asks for with an exponent: the characters before the point, the places and
the digits of the exponent. -/
def scientificWidths (layout : ColumnLayout) : Double → Option (Nat × Nat × Nat)
  | .finite negative mantissa exponent =>
    let d := Decimal.withDigits (layout.places + 1) mantissa exponent
    some ((withSign negative "0").length, Decimal.digitCount d.digits - 1,
      max 2 (Decimal.digitCount d.lead.natAbs))
  | _ => none

def greatest (widths : List Nat) : Nat := widths.foldl max 0

/-- The format for some doubles. -/
def ofDoubles (layout : ColumnLayout) (xs : List Float) : ColumnFormat :=
  let decoded := xs.map Double.ofFloat
  if layout.needsExponent xs then
    let widths := decoded.filterMap (scientificWidths layout)
    let places := greatest (widths.map (·.2.1))
    let exponent := greatest (widths.map (·.2.2))
    scientific (max (greatest (widths.map (·.1))) (oddWidth xs - (exponent + 3 + places)))
      places exponent
  else
    let parts := decoded.filterMap (positionalParts layout)
    let fraction := Block.widest (parts.map (·.2))
    positional (max (Block.widest (parts.map (·.1))) (oddWidth xs - (fraction + 1))) fraction

/-- The format for the numbers of an array of a type. Truth values are as wide as the longer of
their two words. -/
def ofNumbers (type : CellType) (xs : List Number) : ColumnFormat :=
  match type with
  | .truth => padded 5
  | .signed | .unsigned => padded (Block.widest (xs.map Number.text))
  | .double => ofDoubles .standard (xs.filterMap Number.toFloat?)
  | .unbounded => plain

/-- A finite double with an exponent and exactly so many places. -/
def writeScientific (places width : Nat) (negative : Bool) (mantissa : Nat) (exponent : Int) :
    String :=
  let (num, den) := Double.magnitude mantissa exponent
  let d := Decimal.rounded num den (places + 1)
  let digits := (Decimal.digitText d.digits).toList
  let digits := List.replicate (places + 1 - digits.length) '0' ++ digits
  withSign negative (String.ofList (digits.take 1)) ++ "." ++ String.ofList (digits.drop 1)
    ++ FloatLayout.exponentText width "e" d.lead

def writeDouble (format : ColumnFormat) (x : Float) : String :=
  match format, Double.ofFloat x with
  | scientific whole places width, .finite negative mantissa exponent =>
    Block.padLeft (whole + places + width + 3)
      (writeScientific places width negative mantissa exponent)
  | scientific whole places width, _ =>
    Block.padLeft (whole + places + width + 3) (FloatLayout.standard.write x)
  | positional whole fraction, .finite negative mantissa exponent =>
    let (left, right) := (Decimal.withPlaces ColumnLayout.standard.places mantissa exponent).parts
    Block.padLeft whole (withSign negative left) ++ "." ++ Block.padRight fraction right
  | positional whole fraction, _ =>
    Block.padLeft (whole + fraction + 1) (FloatLayout.standard.write x)
  | padded width, _ => Block.padLeft width (FloatLayout.standard.write x)
  | plain, _ => FloatLayout.standard.write x

/-- A number in a format. -/
def write (format : ColumnFormat) : Number → String
  | .float x => format.writeDouble x
  | x =>
    match format with
    | padded width => Block.padLeft width x.text
    | _ => x.text

end ColumnFormat

end LinearProgram
