import LinearProgram.Error
import LinearProgram.Text.Blank

/-!
# Kinds, directions and bounds as given

Statements give kinds and directions as words, and bounds as numbers or as words for infinity.
`Bound.check` says which bounds a variable of each kind may have.
-/

namespace LinearProgram

/-- The kind that a value names. -/
def VariableKind.ofValue (value : Value) : Except Error VariableKind :=
  match VariableKind.ofText? value.text with
  | some kind => .ok kind
  | none => raise (.unknownKind value)

/-- The direction that a value names. -/
def Direction.ofValue (value : Value) : Except Error Direction :=
  match Direction.ofText? value.text with
  | some direction => .ok direction
  | none => raise (.unknownDirection value)

namespace Bound

/-- The infinity that a word in any case stands for. -/
def infinity? (s : String) : Option Number :=
  match (Blank.strip s).toLower with
  | "inf" | "+inf" | "infinity" | "+infinity" => some .infinity
  | "-inf" | "-infinity" => some .negInfinity
  | _ => none

/-- A bound given as a number; truth values are refused. -/
def ofNumber : Number → Except Error Number
  | .bool b => raise (.invalidBound (Number.bool b).text)
  | x => .ok x

/-- A bound as given: nothing, a number, or a word for infinity. -/
def ofValue : Value → Except Error (Option Number)
  | .none => .ok none
  | .str s =>
    match infinity? s with
    | some x => .ok (some x)
    | none => raise (.invalidBound (Value.str s).quoted)
  | .number x | .cell x => do pure (some (← ofNumber x))
  | value => raise (.invalidBound value.quoted)

/-- Refuse a bound of an integer variable that is finite but not whole. -/
def checkWhole (name : String) : Option Number → Except Error Unit
  | none => .ok ()
  | some x => do
    let f ← orOverflow x.toFloat?
    if f.isFinite && x.whole?.isNone then raise (.fractionalBound name x) else pure ()

/-- Refuse the bounds that a variable of the given kind cannot have. -/
def check (name : String) (kind : VariableKind) (lower upper : Option Number) :
    Except Error Unit := do
  match kind with
  | .binary => if lower.isSome || upper.isSome then raise (.binaryBounds name) else return
  | .integer =>
    checkWhole name lower
    checkWhole name upper
  | .continuous => pure ()
  if lower.any (·.equal .infinity) then raise (.lowerInfinite name)
  if upper.any (·.equal .negInfinity) then raise (.upperInfinite name)
  match lower, upper with
  | some l, some u => if u.less l then raise (.crossedBounds name l u) else pure ()
  | _, _ => pure ()

end Bound

end LinearProgram
