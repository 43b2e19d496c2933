import LinearProgram.Proofs.Assignment
import LinearProgram.Proofs.DoubleValues

/-!
# Equality of keys

Index values are compared across types: `1`, `1.0` and `True` are one key. On keys this is an
equivalence relation (`Value.same_self`, `Value.same_comm`, `Value.same_congr`), so single instances
can be changed in an assignment (`Assignment.set`).
-/

namespace LinearProgram

variable {x y : Number}

/-! ## Numbers -/

namespace Number

theorem equal_float_float (x y : Float) : (float x).equal (float y) = (x == y) := by
  cases test : x == y with
  | false =>
    simp only [equal, compare?, test, Bool.false_eq_true, if_false]
    split
    · rfl
    · split <;> rfl
  | true =>
    have notLess : ¬ x < y := by
      intro less
      have below : (x.toModel.unpack.compare y.toModel.unpack == some .lt) = true :=
        of_decide_eq_true less
      have level : (x.toModel.unpack.compare y.toModel.unpack == some .eq) = true := test
      rw [beq_iff_eq.mp level] at below
      exact absurd below (by decide)
    simp [equal, compare?, notLess, test]

/-- A truth value or an integer is compared by the integer behind it. -/
theorem equal_exact {n : Int} (exact : y.toInt? = some n) (x : Number) :
    x.equal y = x.equal (int n) := by
  cases left : x.toInt? with
  | some => rw [equal_of_toInt left exact, equal_of_toInt left rfl]
  | none =>
    cases x with
    | float z => exact (equal_float_of_toInt exact z).2
    | _ => cases left

theorem equal_comm (x y : Number) : x.equal y = y.equal x := by
  cases left : x.toInt? with
  | some =>
    cases right : y.toInt? with
    | some =>
      rw [equal_of_toInt left right, equal_of_toInt right left]
      exact decide_eq_decide.mpr eq_comm
    | none =>
      cases y with
      | float z => rw [(equal_float_of_toInt left z).1, (equal_float_of_toInt left z).2]
      | _ => cases right
  | none =>
    cases x with
    | float z =>
      cases right : y.toInt? with
      | some => rw [(equal_float_of_toInt right z).1, (equal_float_of_toInt right z).2]
      | none =>
        cases y with
        | float =>
          rw [equal_float_float, equal_float_float, Bool.eq_iff_iff,
            Float.beq_iff_ne_nan_and_eq, Float.beq_iff_ne_nan_and_eq]
          tauto
        | _ => cases right
    | _ => cases left

/-- What equals something that equals a double equals that double. -/
theorem equal_float_trans {w : Float} (first : x.equal y = true)
    (second : y.equal (float w) = true) :
    x.equal (float w) = true := by
  cases left : x.toInt? with
  | some =>
    rw [equal_comm, equal_exact left, ← equal_int_congr second, ← equal_exact left, equal_comm]
    exact first
  | none =>
    cases x with
    | float =>
      rw [equal_float_float]
      cases middle : y.toInt? with
      | some =>
        rw [equal_exact middle, equal_float_int, beq_iff_eq] at first
        rw [equal_comm, equal_exact middle, equal_float_int, beq_iff_eq] at second
        exact Double.beq_of_compareInt first second
      | none =>
        cases y with
        | float =>
          rw [equal_float_float, Float.beq_iff_ne_nan_and_eq] at first second
          rw [Float.beq_iff_ne_nan_and_eq]
          obtain ⟨number, -, same⟩ := first
          obtain ⟨-, number', same'⟩ := second
          refine ⟨number, number', ?_⟩
          rcases same with rfl | ⟨rfl, rfl⟩ | ⟨rfl, rfl⟩
          · exact same'
          · rcases same' with rfl | ⟨zero, -⟩ | ⟨-, rfl⟩
            · exact .inr (.inl ⟨rfl, rfl⟩)
            · exact absurd zero (by decide)
            · exact .inl rfl
          · rcases same' with rfl | ⟨-, rfl⟩ | ⟨zero, -⟩
            · exact .inr (.inr ⟨rfl, rfl⟩)
            · exact .inl rfl
            · exact absurd zero (by decide)
        | _ => cases middle
    | _ => cases left

theorem equal_of_isNaN (nan : x.isNaN = true) (y : Number) : x.equal y = false := by
  cases right : y.toInt? with
  | some => rw [equal_exact right, equal_int_of_isNaN nan]
  | none =>
    cases y with
    | float =>
      cases x with
      | float z =>
        have test : z.isNaN = true := nan
        rw [Float.isNaN_eq_decide_eq_nan, decide_eq_true_eq] at test
        rw [equal_float_float, test, Float.nan_beq_eq_false]
      | _ => cases nan
    | _ => cases right

theorem isNaN_of_equal (equal : x.equal y = true) : x.isNaN = false ∧ y.isNaN = false := by
  constructor
  · cases nan : x.isNaN with
    | true => rw [equal_of_isNaN nan] at equal; cases equal
    | false => rfl
  · cases nan : y.isNaN with
    | true => rw [equal_comm, equal_of_isNaN nan] at equal; cases equal
    | false => rfl

theorem equal_congr (same : x.equal y = true) (z : Number) : x.equal z = y.equal z := by
  cases right : z.toInt? with
  | some => rw [equal_exact right, equal_exact right, equal_int_congr same]
  | none =>
    cases z with
    | float =>
      have back : y.equal x = true := by rwa [equal_comm]
      exact Bool.eq_iff_iff.mpr ⟨equal_float_trans back, equal_float_trans same⟩
    | _ => cases right

end Number

/-! ## Index values -/

namespace Value

theorem bothNaN_comm (v w : Value) : bothNaN v w = bothNaN w v := by
  cases v <;> cases w <;> simp [bothNaN, Bool.and_comm]

theorem same_comm_of_equal {v w : Value} (equal : v.equal w = w.equal v) : v.same w = w.same v := by
  rw [same, same, equal, bothNaN_comm]

mutual

/-- Whether a key is the same item as another does not depend on which of them is asked. -/
theorem same_comm {v : Value} (key : v.isKey = true) (w : Value) : v.same w = w.same v := by
  match v with
  | none => cases w <;> rfl
  | number x | cell x =>
    refine same_comm_of_equal ?_
    cases w with
    | number y | cell y => exact Number.equal_comm _ _
    | _ => rfl
  | str s =>
    refine same_comm_of_equal ?_
    cases w with
    | str => exact Bool.beq_comm
    | _ => rfl
  | range a b c =>
    refine same_comm_of_equal ?_
    cases w with
    | range d e f =>
      simp only [equal]
      by_cases length : rangeLength a b c = rangeLength d e f
      · rw [length, Bool.beq_comm (a := a) (b := d), Bool.beq_comm (a := c) (b := f)]
      · rw [beq_eq_false_iff_ne.mpr length, beq_eq_false_iff_ne.mpr (Ne.symm length)]
        rfl
    | _ => rfl
  | tuple items =>
    have inner : areKeys items = true := by simpa [isKey] using key
    refine same_comm_of_equal ?_
    cases w with
    | tuple others => exact equalItems_comm inner others
    | _ => rfl
  | foreign _ _ _ =>
    refine same_comm_of_equal ?_
    cases w with
    | foreign => exact Bool.beq_comm
    | _ => rfl
  | list _ | table _ | set _ | record _ => simp [isKey] at key

theorem equalItems_comm {items : List Value} (keys : areKeys items = true) (others : List Value) :
    equalItems items others = equalItems others items := by
  match items, others with
  | [], [] | [], _ :: _ | _ :: _, [] => rfl
  | item :: rest, other :: others =>
    simp only [areKeys, Bool.and_eq_true] at keys
    rw [equalItems_cons, equalItems_cons, same_comm keys.1, equalItems_comm keys.2]

end

/-- Values that are the same item are the same as the same numbers. -/
theorem same_number_congr {v w : Value} (same : v.same w = true) (x : Number) :
    v.same (number x) = w.same (number x) ∧ v.same (cell x) = w.same (cell x) := by
  cases v with
  | number a | cell a =>
    cases w with
    | number b | cell b =>
      simp only [Value.same, bothNaN, equal, Bool.or_eq_true, Bool.and_eq_true,
        Bool.false_eq_true, false_or] at same ⊢
      grind [Number.equal_of_isNaN, Number.equal_congr, Number.isNaN_of_equal]
    | _ => simp [Value.same, bothNaN, equal] at same
  | _ => cases w <;> simp [Value.same, bothNaN, equal] at same ⊢

mutual

/-- The same values are the same as the same keys. -/
theorem same_congr {key : Value} (legal : key.isKey = true) {v w : Value} (same : v.same w = true) :
    v.same key = w.same key := by
  match key with
  | none => cases v <;> cases w <;> simp_all [Value.same, bothNaN, equal]
  | number x => exact (same_number_congr same x).1
  | cell x => exact (same_number_congr same x).2
  | str s => cases v <;> cases w <;> simp_all [Value.same, bothNaN, equal]
  | range a b c =>
    cases v <;> cases w <;> simp_all [Value.same, bothNaN, equal]
    grind
  | tuple items =>
    have inner : areKeys items = true := by simpa [isKey] using legal
    cases v <;> cases w <;> simp_all [Value.same, bothNaN, equal]
    exact equalItems_congr inner same
  | foreign _ _ _ => cases v <;> cases w <;> simp_all [Value.same, bothNaN, equal]
  | list _ | table _ | set _ | record _ => simp [isKey] at legal

theorem equalItems_congr {keys : List Value} (legal : areKeys keys = true)
    {items others : List Value}
    (same : equalItems items others = true) : equalItems items keys = equalItems others keys := by
  match items, others, keys with
  | [], [], keys => rfl
  | [], _ :: _, _ | _ :: _, [], _ => simp [equalItems] at same
  | item :: rest, other :: others, [] => simp [equalItems]
  | item :: rest, other :: others, key :: keys =>
    simp only [areKeys, Bool.and_eq_true] at legal
    rw [equalItems_cons, Bool.and_eq_true] at same
    rw [equalItems_cons, equalItems_cons, same_congr legal.1 same.1,
      equalItems_congr legal.2 same.2]

end

end Value

/-! ## Instances -/

namespace VarKey

theorem equal_comm {key : VarKey} (legal : key.isKey = true) (other : VarKey) :
    key.equal other = other.equal key := by
  rw [equal, equal, Value.equalItems_comm legal, Bool.beq_comm (a := key.family)]

/-- Keys that name one instance are equal to the same keys. -/
theorem equal_congr {key : VarKey} (legal : key.isKey = true) {k k' : VarKey}
    (same : k.equal k' = true) : k.equal key = k'.equal key := by
  rw [equal, Bool.and_eq_true, beq_iff_eq] at same
  rw [equal, equal, same.1, Value.equalItems_congr legal same.2]

end VarKey

namespace Assignment

/-- The assignment that gives the instance of a key another value. -/
def set (a : Assignment) {key : VarKey} (legal : key.isKey = true) (q : ℚ) : Assignment where
  value k := if k.equal key then q else a.value k
  respects same := by
    rw [VarKey.equal_congr legal same]
    split
    · rfl
    · exact a.respects same

theorem set_self (a : Assignment) {key : VarKey} (legal : key.isKey = true) (q : ℚ) :
    (a.set legal q).value key = q :=
  if_pos (VarKey.equal_self legal)

theorem set_other (a : Assignment) {key : VarKey} (legal : key.isKey = true) (q : ℚ) {k : VarKey}
    (different : k.equal key = false) : (a.set legal q).value k = a.value k :=
  if_neg (by rw [different]; decide)

end Assignment

end LinearProgram
