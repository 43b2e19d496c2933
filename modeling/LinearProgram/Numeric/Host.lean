import LinearProgram.Host
import LinearProgram.Numeric.Grid

/-!
# The numeric host

A host with numeric arrays. An array is compared item by item, with an array, a sequence that can be
one, or a single value, after the two shapes are brought to a common one: axes are matched from the
last, and one of extent one, or a missing one, is repeated. Where a double takes part both numbers
are compared as doubles. A side that holds text equals nothing.
-/

namespace LinearProgram

/-- What the items of one side of a comparison are together. -/
inductive Cells where
  | numbers (type : CellType)
  | text
  | values
  deriving Repr, DecidableEq

namespace Cells

/-- Whether two sides are compared as doubles: if one holds doubles, and the other does not hold
numbers of all kinds. -/
def asDoubles : Cells → Cells → Bool
  | numbers .unbounded, _ | _, numbers .unbounded => false
  | numbers .double, numbers _ | numbers _, numbers .double => true
  | _, _ => false

/-- What some items are. One that is neither number nor text makes all of them values. -/
def ofItems (items : List Value) : Cells :=
  let xs := items.filterMap Grid.number?
  let texts := items.filterMap Value.str?
  if xs.length = items.length then numbers (.ofNumbers xs)
  else if xs.length + texts.length = items.length then text
  else values

end Cells

namespace Numeric

/-- One side of a comparison: what its items are, and the items in rows. A single number takes the
type of the other side, so it only counts as an integer or as a double. -/
def side (v : Value) : Except Breakdown (Cells × Grid) :=
  let grid := Grid.ofValue v
  match v with
  | .foreign view _ _ => .ok (.numbers (.ofWord view.tag), grid)
  | .number (.int _) => .ok (.numbers .signed, grid)
  | .number x | .cell x => .ok (.numbers (.ofNumber x), grid)
  | .str _ => .ok (.text, grid)
  | .list _ | .tuple _ | .range _ _ _ =>
    if grid.isRegular grid.shape then .ok (.ofItems grid.bottom, grid)
    else .error (.malformed "")
  | _ => .ok (.values, grid)

/-- The extent that two axes share, if one of them can be repeated. -/
def commonExtent (m n : Nat) : Option Nat :=
  if m = n then some m else if m = 1 then some n else if n = 1 then some m else none

/-- The common shape of two, both given from the last axis on. -/
def commonExtents : List Nat → List Nat → Option (List Nat)
  | [], t => some t
  | s, [] => some s
  | m :: s, n :: t => do
    let extent ← commonExtent m n
    let rest ← commonExtents s t
    pure (extent :: rest)

/-- The shape that two shapes stretch to. -/
def commonShape (s t : List Nat) : Option (List Nat) :=
  (commonExtents s.reverse t.reverse).map List.reverse

/-- Repeat rows of so many axes to fill a shape. -/
def stretch : List Nat → Nat → Grid → Grid
  | [], _, grid => grid
  | n :: dims, axes, grid =>
    if axes ≤ dims.length then .rows (List.replicate n (stretch dims axes grid))
    else
      match grid with
      | .rows [first] => .rows (List.replicate n (stretch dims (axes - 1) first))
      | .rows items => .rows (items.map (stretch dims (axes - 1)))
      | .item v => .item v

mutual

/-- The answers of a test on the items of two grids of one shape. -/
def zip (test : Value → Value → Except Breakdown Bool) : Grid → Grid → Except Breakdown Grid
  | .rows xs, .rows ys => do pure (.rows (← zipAll test xs ys))
  | .item x, .item y => do pure (.item (.bool (← test x y)))
  | _, _ => .error (.malformed "")

def zipAll (test : Value → Value → Except Breakdown Bool) :
    List Grid → List Grid → Except Breakdown (List Grid)
  | x :: xs, y :: ys => do
    let first ← zip test x y
    let others ← zipAll test xs ys
    pure (first :: others)
  | _, _ => .ok []

end

/-- The double a number is compared as. -/
def asDouble (v : Value) : Except Breakdown Value :=
  match Grid.number? v with
  | some x =>
    match x.toFloat? with
    | some y => .ok (.float y)
    | none => .error .overflow
  | none => .ok v

/-- The answer to a comparison of two items. Nothing equals an item of a side that holds text. -/
def testItems (op : Comparison) (left right : Cells) (x y : Value) : Except Breakdown Bool := do
  if left == .text || right == .text then pure (op == .ne)
  else
    let (x, y) ← if left.asDoubles right then do pure (← asDouble x, ← asDouble y) else pure (x, y)
    match op.answer? x y with
    | some answer => pure answer
    | none => .error .unsupported

/-- Compare item by item. Text has no order, and sides whose shapes do not fit have no answer. -/
def compare (op : Comparison) (left right : Value) : Except Breakdown Value := do
  let (leftCells, left) ← side left
  let (rightCells, right) ← side right
  if (leftCells == .text || rightCells == .text) && op != .eq && op != .ne then .error .unsupported
  else
    match commonShape left.shape right.shape with
    | none => .error (.malformed "")
    | some dims => do
      let answers ← zip (testItems op leftCells rightCells) (stretch dims left.shape.length left)
        (stretch dims right.shape.length right)
      pure (answers.toValue .truth)

/-- The array of nested sequences, whose rows must have one shape. -/
def toArray (v : Value) : Except Breakdown Value :=
  let grid := Grid.ofValue v
  if grid.isRegular grid.shape then .ok grid.toArray else .error (.malformed "")

end Numeric

/-- The host with numeric arrays, which are no keys. -/
def Host.numeric : Host :=
  { Host.bare with
    arrayOf := fun xs => (Grid.rows (xs.map fun x => .item (.number x))).toArray
    compare := fun op left right =>
      if (left.isForeign && !left.isKey) || (right.isForeign && !right.isKey) then
        Numeric.compare op left right
      else .error .unsupported
    steady := by
      intro op left right isLeft isRight
      refine .inl (if_neg fun array => ?_)
      rw [Bool.or_eq_true, Bool.and_eq_true, Bool.and_eq_true] at array
      rcases array with ⟨object, noKey⟩ | ⟨object, noKey⟩
      · simp [isLeft object] at noKey
      · simp [isRight object] at noKey }

end LinearProgram
