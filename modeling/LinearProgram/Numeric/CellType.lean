import LinearProgram.Number.Basic

/-!
# Number types of arrays

The numbers of an array share one type: doubles if one of them is a double, or if some need the sign
and others the full unsigned word; otherwise integers of a machine word, or truth values. An integer
that fits no machine word leaves every number as it is.
-/

namespace LinearProgram

/-- The narrowest type that holds a number in an array. -/
inductive CellType where
  | truth | signed | unsigned | double | unbounded
  deriving Repr, DecidableEq, Inhabited

namespace CellType

/-- The type of a number. -/
def ofNumber : Number → CellType
  | .bool _ => truth
  | .int n =>
    if -(Int.pow 2 63) ≤ n ∧ n < Int.pow 2 63 then signed
    else if 0 ≤ n ∧ n < Int.pow 2 64 then unsigned
    else unbounded
  | .float _ => double

/-- The type of two numbers in one array. -/
def join : CellType → CellType → CellType
  | truth, t | t, truth => t
  | unbounded, _ | _, unbounded => unbounded
  | double, _ | _, double => double
  | signed, signed => signed
  | unsigned, unsigned => unsigned
  | signed, unsigned | unsigned, signed => double

/-- The type that the numbers of an array share. No numbers at all count as doubles. -/
def ofNumbers : List Number → CellType
  | [] => double
  | x :: rest => rest.foldl (fun type y => type.join (ofNumber y)) (ofNumber x)

/-- A number as one of a type. -/
def convert (type : CellType) (x : Number) : Number :=
  match type, x with
  | double, _ => (x.toFloat?.map Number.float).getD x
  | signed, .bool b | unsigned, .bool b => .int (if b then 1 else 0)
  | _, _ => x

def word : CellType → String
  | truth => "bool"
  | signed => "int64"
  | unsigned => "uint64"
  | double => "float64"
  | unbounded => "object"

def ofWord : String → CellType
  | "bool" => truth
  | "int64" => signed
  | "uint64" => unsigned
  | "float64" => double
  | _ => unbounded

/-- Whether the written numbers of an array tell the type by themselves. -/
def isImplied : CellType → Bool
  | truth | signed | double => true
  | unsigned | unbounded => false

end CellType

end LinearProgram
