import LinearProgram.Polynomial.Basic
import LinearProgram.Proofs.Doubles

/-!
# Equality of keys

Equality with an integer does not tell equal values apart (`Value.equal_int_congr`), which makes the
numbered keys of auxiliary variables a class of their own (`VarKey.equal_numbered_congr`).
-/

namespace LinearProgram

open List

variable {x : Number} {n : Int}

namespace Number

theorem equal_of_toInt {y : Number} {m : Int} (left : x.toInt? = some m)
    (right : y.toInt? = some n) :
    x.equal y = decide (m = n) := by
  have compared : x.compare? y = some (compare m n) := by
    cases x <;> cases y <;> simp_all [compare?, toInt?]
  rw [equal, compared]
  by_cases same : m = n
  · simp [same]
  · have different : compare m n ≠ .eq := fun h => same (Int.compare_eq_eq.mp h)
    cases order : compare m n <;> simp_all

theorem equal_float_int (x : Float) (n : Int) :
    (float x).equal (int n) = (Double.compareInt n (Double.ofFloat x) == some .eq) := by
  simp only [equal, compare?, toInt?, Option.getD_some]
  cases Double.compareInt n (Double.ofFloat x) with
  | none => rfl
  | some o => cases o <;> rfl

theorem equal_float_of_toInt (exact : x.toInt? = some n) (y : Float) :
    x.equal (float y) = (float y).equal (int n)
      ∧ (float y).equal x = (float y).equal (int n) := by
  rw [equal_float_int]
  cases x with
  | float => simp [toInt?] at exact
  | bool b =>
    simp only [toInt?, Option.some.injEq] at exact
    subst exact
    refine ⟨rfl, ?_⟩
    simp only [equal, compare?, toInt?, Option.getD_some]
    cases Double.compareInt (if b = true then 1 else 0) (Double.ofFloat y) with
    | none => rfl
    | some o => cases o <;> rfl
  | int m =>
    simp only [toInt?, Option.some.injEq] at exact
    subst exact
    exact ⟨rfl, equal_float_int y m⟩

/-- A double is at most one integer. -/
theorem compareInt_eq_unique {d : Double} {m : Int} (first : Double.compareInt m d = some .eq)
    (second : Double.compareInt n d = some .eq) : m = n := by
  cases d with
  | nan => simp [Double.compareInt] at first
  | infinite negative => cases negative <;> simp [Double.compareInt] at first
  | finite _ mantissa exponent =>
    have positive : 0 < (Double.magnitude mantissa exponent).2 := by
      unfold Double.magnitude
      split
      · exact Nat.one_pos
      · exact Nat.two_pow_pos _
    simp only [Double.compareInt, Option.some.injEq, Int.compare_eq_eq] at first second
    have scaled := first.trans second.symm
    exact Int.eq_of_mul_eq_mul_right (by omega) scaled

theorem int_equal_comm (n : Int) (x : Number) : (int n).equal x = x.equal (int n) := by
  cases x with
  | float y => exact (equal_float_of_toInt (x := int n) rfl y).1
  | bool =>
    rw [equal_of_toInt (x := int n) rfl rfl, equal_of_toInt (y := int n) rfl rfl]
    exact decide_eq_decide.mpr eq_comm
  | int =>
    rw [equal_of_toInt (x := int n) rfl rfl, equal_of_toInt (y := int n) rfl rfl]
    exact decide_eq_decide.mpr eq_comm

theorem equal_int_congr {y : Number} (same : x.equal y = true) (n : Int) :
    x.equal (int n) = y.equal (int n) := by
  cases hx : x.toInt? with
  | some m =>
    rw [equal_of_toInt hx rfl]
    cases hy : y.toInt? with
    | some =>
      rw [equal_of_toInt hx hy, decide_eq_true_eq] at same
      rw [equal_of_toInt hy rfl, same]
    | none =>
      -- a double equals one integer at most
      cases y with
      | float z =>
        rw [(equal_float_of_toInt hx z).1, equal_float_int, beq_iff_eq] at same
        rw [equal_float_int]
        by_cases equal : m = n
        · rw [← equal, same, decide_eq_true rfl]
          rfl
        · rw [decide_eq_false equal, eq_comm, beq_eq_false_iff_ne]
          exact fun other => equal (compareInt_eq_unique same other)
      | bool | int => simp [toInt?] at hy
  | none =>
    cases x with
    | bool | int => simp [toInt?] at hx
    | float z =>
      cases hy : y.toInt? with
      | some k =>
        rw [(equal_float_of_toInt hy z).2, equal_float_int, beq_iff_eq] at same
        rw [equal_float_int, equal_of_toInt hy rfl]
        by_cases equal : k = n
        · rw [← equal, same, decide_eq_true rfl]
          rfl
        · rw [decide_eq_false equal, beq_eq_false_iff_ne]
          exact fun other => equal (compareInt_eq_unique same other)
      | none =>
        cases y with
        | bool | int => simp [toInt?] at hy
        | float w =>
          have equal : (z == w) = true := by
            simp only [Number.equal, compare?, beq_iff_eq] at same
            split at same
            · cases same
            · split at same
              · assumption
              · split at same <;> cases same
          rw [equal_float_int, equal_float_int, Double.compareInt_congr equal]

theorem equal_self (number : x.isNaN = false) : x.equal x = true := by
  cases x with
  | bool b => cases b <;> rfl
  | int n => simp [equal_of_toInt (x := int n) (y := int n) rfl rfl]
  | float z =>
    have real : z ≠ Float.nan := by
      intro nan
      subst nan
      exact absurd number (by decide)
    have equal : (z == z) = true := Float.beq_self_iff.mpr real
    have notLess : ¬ z < z := by
      intro less
      have below : (z.toModel.unpack.compare z.toModel.unpack == some .lt) = true :=
        of_decide_eq_true less
      have self : (z.toModel.unpack.compare z.toModel.unpack == some .eq) = true := equal
      rw [beq_iff_eq.mp self] at below
      exact absurd below (by decide)
    simp [Number.equal, compare?, notLess, equal]

theorem equal_int_of_isNaN (nan : x.isNaN = true) (n : Int) : x.equal (int n) = false := by
  cases x with
  | bool | int => simp [isNaN] at nan
  | float z =>
    have only : z = Float.nan := by
      have test : z.isNaN = true := nan
      rwa [Float.isNaN_eq_decide_eq_nan, decide_eq_true_eq] at test
    have decoded : Double.ofFloat Float.nan = .nan := by decide
    rw [equal_float_int, only, decoded]
    rfl

end Number

namespace Value

/-- The number that a plain number or an array element holds. -/
def numeral? : Value → Option Number
  | number x | cell x => some x
  | _ => Option.none

theorem same_int (v : Value) (n : Int) :
    v.same (int n) = (v.numeral?.map (·.equal (.int n))).getD false := by
  cases v <;> simp [same, bothNaN, equal, int, numeral?, Number.isNaN]

/-- Two values that are the same item are equal numbers, both NaN, or no numbers at all. -/
theorem numeral_of_same {x y : Value} (same : x.same y = true) :
    (∃ a b, x.numeral? = some a ∧ y.numeral? = some b
        ∧ (a.isNaN = true ∧ b.isNaN = true ∨ a.equal b = true))
      ∨ (x.numeral? = Option.none ∧ y.numeral? = Option.none) := by
  cases x <;> cases y <;> simp_all [Value.same, bothNaN, equal, numeral?]

theorem same_int_congr {x y : Value} (same : x.same y = true) (n : Int) :
    x.same (int n) = y.same (int n) := by
  rw [same_int, same_int]
  rcases numeral_of_same same with ⟨a, b, left, right, ⟨nanLeft, nanRight⟩ | equal⟩ | ⟨left, right⟩
  · simp [left, right, Number.equal_int_of_isNaN nanLeft, Number.equal_int_of_isNaN nanRight]
  · simp [left, right, Number.equal_int_congr equal]
  · simp [left, right]

theorem int_same (n : Int) (v : Value) : (int n).same v = v.same (int n) := by
  cases v <;> simp [same, bothNaN, equal, int, Number.isNaN, Number.int_equal_comm]

theorem int_same_int (m n : Int) : (int m).same (int n) = decide (m = n) := by
  rw [same_int]
  exact Number.equal_of_toInt rfl rfl

theorem equalItems_cons (x y : Value) (xs ys : List Value) :
    equalItems (x :: xs) (y :: ys) = (x.same y && equalItems xs ys) := by
  simp [equalItems, same]

theorem equalItems_ints_congr {xs ys : List Value} (same : equalItems xs ys = true)
    (ns : List Int) : equalItems xs (ns.map int) = equalItems ys (ns.map int) := by
  induction xs generalizing ys ns with
  | nil =>
    cases ys with
    | nil => rfl
    | cons => simp [equalItems] at same
  | cons _ _ ih =>
    cases ys with
    | nil => simp [equalItems] at same
    | cons =>
      rw [equalItems_cons, Bool.and_eq_true] at same
      cases ns with
      | nil => simp [equalItems]
      | cons =>
        rw [map_cons, equalItems_cons, equalItems_cons, same_int_congr same.1,
          ih same.2]

theorem same_self_of_equal {v : Value} (equal : v.equal v = true) : v.same v = true := by
  simp [same, equal]

mutual

theorem same_self {v : Value} (key : v.isKey = true) : v.same v = true := by
  match v with
  | none => rfl
  | number x | cell x =>
    cases nan : x.isNaN with
    | true => simp [same, bothNaN, nan]
    | false => exact same_self_of_equal (by simp [equal, Number.equal_self nan])
  | str s => exact same_self_of_equal (by simp [equal])
  | range a b c => exact same_self_of_equal (by simp [equal])
  | tuple items =>
    have inner : areKeys items = true := by simpa [isKey] using key
    exact same_self_of_equal (by simp [equal, equalItems_self inner])
  | foreign _ _ _ => exact same_self_of_equal (by simp [equal])
  | list _ | table _ | set _ | record _ => simp [isKey] at key

theorem equalItems_self {items : List Value} (keys : areKeys items = true) :
    equalItems items items = true := by
  match items with
  | [] => rfl
  | item :: rest =>
    simp only [areKeys, Bool.and_eq_true] at keys
    rw [equalItems_cons, same_self keys.1, equalItems_self keys.2]
    rfl

end

end Value

namespace VarKey

theorem equal_self {key : VarKey} (legal : key.isKey = true) : key.equal key = true := by
  simp [equal, Value.equalItems_self legal]

/-- The key of a numbered instance, the form that auxiliary variables have. -/
def numbered (family : String) (index : List Nat) : VarKey :=
  ⟨family, index.map fun (n : Nat) => .int n⟩

/-- Keys of one instance are keys of the same numbered instances. -/
theorem equal_numbered_congr {k k' : VarKey} (same : k.equal k' = true) (family : String)
    (index : List Nat) : k.equal (numbered family index) = k'.equal (numbered family index) := by
  simp only [equal, Bool.and_eq_true, beq_iff_eq] at same
  have items := Value.equalItems_ints_congr same.2 (index.map Int.ofNat)
  simp only [map_map] at items
  simp only [equal, numbered, same.1]
  exact congrArg _ items

theorem numbered_equal_comm (family : String) (index : List Nat) (key : VarKey) :
    (numbered family index).equal key = key.equal (numbered family index) := by
  have items : ∀ values : List Value,
      Value.equalItems (index.map fun (n : Nat) => .int n) values
        = Value.equalItems values (index.map fun (n : Nat) => .int n) := by
    induction index with
    | nil =>
      intro values
      cases values <;> simp [Value.equalItems]
    | cons _ _ ih =>
      intro values
      cases values with
      | nil => simp [Value.equalItems]
      | cons =>
        rw [map_cons, Value.equalItems_cons, Value.equalItems_cons, Value.int_same, ih]
  simp only [equal, numbered, items]
  congr 1
  exact Bool.beq_comm

/-- Numbered instances are one only if they are written alike. -/
theorem numbered_equal_numbered {family family' : String} {index index' : List Nat} :
    (numbered family index).equal (numbered family' index') = true
      ↔ family = family' ∧ index = index' := by
  have items : ∀ index index' : List Nat,
      Value.equalItems (index.map fun (n : Nat) => .int n)
        (index'.map fun (n : Nat) => .int n) = true
        ↔ index = index' := by
    intro index
    induction index with
    | nil =>
      intro index'
      cases index' <;> simp [Value.equalItems]
    | cons _ _ ih =>
      intro index'
      cases index' with
      | nil => simp [Value.equalItems]
      | cons =>
        rw [map_cons, map_cons, Value.equalItems_cons, Value.int_same_int,
          Bool.and_eq_true, ih]
        simp
  simp only [equal, numbered, Bool.and_eq_true, beq_iff_eq, items]

/-- A numbered instance is none of those that are declared, if it is not declared itself. -/
theorem numbered_ne_of_declared (keys : List VarKey) {family : String} {index : List Nat}
    {key : VarKey} (fresh : ∀ k ∈ keys, k.equal (numbered family index) = false)
    (known : ∃ k ∈ keys, k.equal key = true) : (numbered family index).equal key = false := by
  obtain ⟨k, mem, same⟩ := known
  rw [numbered_equal_comm, ← equal_numbered_congr same]
  exact fresh k mem

end VarKey

end LinearProgram
