import LinearProgram.Numeric.Column
import LinearProgram.Value.Printer

/-!
# Numeric arrays

Arrays are nested rows of items (`Grid`). `Grid.toValue` makes them objects of the host and writes
them: with their numbers lined up, on lines of limited width. A long array is cut short to the items
at the ends of each axis.
-/

namespace LinearProgram

/-- Items in rows. -/
inductive Grid where
  | item (v : Value)
  | rows (items : List Grid)
  deriving Inhabited

namespace Grid

mutual

/-- Write ranges inside sequences out, and turn all sequences into rows. -/
def ofValue : Value → Grid
  | .list items | .tuple items => rows (ofItems items)
  | .range start stop step => rows ((Value.rangeItems start stop step).map item)
  | .foreign _ core _ => ofValue core
  | v => item v

def ofItems : List Value → List Grid
  | [] => []
  | v :: rest => ofValue v :: ofItems rest

end

/-- The extents of an array along its axes. -/
def shape : Grid → List Nat
  | item _ => []
  | rows [] => [0]
  | rows (first :: rest) => (rest.length + 1) :: first.shape

/-- Whether rows that belong together have the same shape throughout. -/
def isRegular : List Nat → Grid → Bool
  | [], item _ => true
  | n :: dims, rows items => items.length == n && items.all (isRegular dims)
  | _, _ => false

mutual

/-- The items at the bottom, in reading order. -/
def bottom : Grid → List Value
  | item v => [v]
  | rows items => bottomOf items

def bottomOf : List Grid → List Value
  | [] => []
  | first :: rest => bottom first ++ bottomOf rest

end

/-- The number that an item is. -/
def number? : Value → Option Number
  | .number x | .cell x => some x
  | _ => none

/-! ## Written arrays -/

/-- How rows are laid out. -/
structure Layout where
  /-- What stands between neighbours on a line. -/
  separator : String
  /-- What ends a line or a row that others follow. -/
  mark : String
  /-- The characters before the first bracket. -/
  offset : Nat
  width : Nat

/-- Arrays of more numbers than this are cut short. -/
def limit : Nat := 1000

/-- So many items are left at both ends of an axis that is cut short. -/
def edge : Nat := 3

mutual

/-- The numbers that the written form shows, in reading order. -/
def shown (short : Bool) : Grid → List Number
  | item v => (number? v).toList
  | rows items =>
    let parts := shownRows short items
    (if short then Block.edges edge [] parts else parts).flatten

def shownRows (short : Bool) : List Grid → List (List Number)
  | [] => []
  | first :: rest => shown short first :: shownRows short rest

end

mutual

/-- The items between brackets. Numbers fill lines of the width; rows begin on lines of their own,
and the more axes they have the farther apart they stand. -/
def write (layout : Layout) (format : ColumnFormat) (short : Bool) (indent width : Nat) :
    Grid → String
  | item v => ((number? v).map format.write).getD ""
  | rows items =>
    let parts := writeAll layout format short (indent + 1) (width - 1) items
    let parts := if short then Block.edges edge ["..."] parts else parts
    let margin := Block.blanks (indent + 1)
    match (rows items).shape.length with
    | 0 | 1 => "[" ++ Block.fill (width - 1) margin layout.separator parts ++ "]"
    | axes + 2 =>
      let gap := layout.mark ++ String.ofList (List.replicate (axes + 1) '\n') ++ margin
      "[" ++ gap.intercalate parts ++ "]"

def writeAll (layout : Layout) (format : ColumnFormat) (short : Bool) (indent width : Nat) :
    List Grid → List String
  | [] => []
  | first :: rest =>
    write layout format short indent width first :: writeAll layout format short indent width rest

end

/-- The number of items of a shape. -/
def count (shape : List Nat) : Nat := shape.foldl (· * ·) 1

/-- Brackets around the numbers, in one format for all that are shown. -/
def text (layout : Layout) (type : CellType) (grid : Grid) : String :=
  let size := count grid.shape
  if size = 0 then "[]"
  else
    let short : Bool := limit < size
    let format := ColumnFormat.ofNumbers type (grid.shown short)
    grid.write layout format short layout.offset layout.width

/-- What the numbers of a written array do not tell: the shape of an array that is empty or cut
short, and a type that is not implied. -/
def notes (type : CellType) (shape : List Nat) : List String :=
  let size := count shape
  (if (size = 0 ∧ shape ≠ [0]) ∨ limit < size then
    ["shape=" ++ Value.tupleText (shape.map Decimal.digitText)] else [])
    ++ (if !type.isImplied || size = 0 then ["dtype=" ++ type.word] else [])

/-- An array as messages show it. Notes stand on the last line if they fit there. -/
def quoted (type : CellType) (grid : Grid) : String :=
  let layout : Layout := { separator := ", ", mark := ",", offset := 6, width := 74 }
  let body := "array(" ++ grid.text layout type
  match notes type grid.shape with
  | [] => body ++ ")"
  | notes =>
    let note := Value.commas notes ++ ")"
    let body := body ++ ","
    let fits := (Block.lastLine body).length + note.length + 1 ≤ 75
    body ++ (if fits then " " else "\n" ++ Block.blanks layout.offset) ++ note

/-- How an array shows itself. -/
def view (type : CellType) (grid : Grid) : View where
  word := "ndarray"
  text := grid.text { separator := " ", mark := "", offset := 0, width := 75 } type
  quoted := grid.quoted type
  tag := type.word
  isFlat := grid.shape.length == 1
  truthy := grid.shape != [0]

mutual

/-- The plain lists that an array gives. -/
def listing : Grid → Value
  | item v => v.normalize
  | rows items => .list (listings items)

def listings : List Grid → List Value
  | [] => []
  | first :: rest => listing first :: listings rest

end

mutual

/-- An array of a type, as an object of the host. -/
def toValue (type : CellType) : Grid → Value
  | item v =>
    match number? v with
    | some x => if type = .unbounded then .number x else .cell (type.convert x)
    | none => v
  | rows items =>
    .foreign ((rows items).view type) (.list (toValues type items)) (listings items)

def toValues (type : CellType) : List Grid → List Value
  | [] => []
  | first :: rest => toValue type first :: toValues type rest

end

mutual

/-- The numbers of a grid as numbers of one type. -/
def convert (type : CellType) : Grid → Grid
  | item v => item (((number? v).map fun x => .number (type.convert x)).getD v)
  | rows items => rows (convertAll type items)

def convertAll (type : CellType) : List Grid → List Grid
  | [] => []
  | first :: rest => convert type first :: convertAll type rest

end

/-- The array of a grid. Its numbers get the one type that holds them all; other items stay as they
are. -/
def toArray (grid : Grid) : Value :=
  let type := match grid.bottom.mapM number? with
    | some xs => CellType.ofNumbers xs
    | none => .unbounded
  (grid.convert type).toValue type

end Grid

end LinearProgram
