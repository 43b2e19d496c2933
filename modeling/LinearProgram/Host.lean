import LinearProgram.Error
import LinearProgram.Value.Order

/-!
# The host

What the program takes from its surroundings: the attributes that values have there, and a library
of arrays. Nothing is known of them but what `Host` says, so what holds of the program holds of it
in every host.
-/

namespace LinearProgram

/-- What the surroundings supply. -/
structure Host where
  /-- The names under which values may have attributes. -/
  attributes : List String
  /-- An attribute of a value, beyond the fields of a record and the parts of a number. -/
  attribute? : Value → String → Option Value
  named : ∀ {value : Value} {name : String} {result : Value},
    attribute? value name = some result → name ∈ attributes
  /-- The array of some numbers. -/
  arrayOf : List Number → Value
  /-- The answer to a comparison with an object of the host. If there is no order, it is not
  supported. -/
  compare : Comparison → Value → Value → Except Breakdown Value
  /-- Objects that can be keys are compared without a breakdown, and the answer can be one. -/
  steady : ∀ {op : Comparison} {left right : Value}, (left.isForeign = true → left.isKey = true) →
    (right.isForeign = true → right.isKey = true) →
      compare op left right = .error .unsupported
        ∨ ∃ answer, compare op left right = .ok answer ∧ answer.isKey = true

/-- A host without attributes and with plain lists for arrays. -/
def Host.bare : Host where
  attributes := []
  attribute? _ _ := none
  named found := by cases found
  arrayOf xs := .list (xs.map .number)
  compare _ _ _ := .error .unsupported
  steady _ _ := .inl rfl

instance : Inhabited Host := ⟨.bare⟩

/-- The answer to a comparison of two plain values; `none` if there is no order. -/
def Comparison.answer? (op : Comparison) (x y : Value) : Option Bool :=
  match op with
  | .eq => some (x.equal y)
  | .ne => some (!x.equal y)
  | .le => Value.ordered? .lessEq x y
  | .ge => Value.ordered? .greaterEq x y
  | .lt => Value.ordered? .less x y
  | .gt => Value.ordered? .greater x y

/-- Compare two values; `refuse` stands for a missing order. The host compares its own objects. -/
def Host.compareBy (host : Host) (refuse : Except Error Bool) (op : Comparison)
    (left right : Value) : Except Error Value :=
  if left.isForeign || right.isForeign then
    match host.compare op left right with
    | .ok answer => .ok answer
    | .error .unsupported => refuse.map .bool
    | .error breakdown => breakDown breakdown
  else
    match op.answer? left right with
    | some answer => .ok (.bool answer)
    | none => refuse.map .bool

end LinearProgram
