import LinearProgram.Proofs.Keys
import LinearProgram.Proofs.Mentions

/-!
# Assignments

An assignment gives every variable instance a rational number. It says what a polynomial is worth
(`Polynomial.valueAt`), whether a variable is within its bounds and kind (`Variable.Admits`) and
whether a row holds (`Constraint.HoldsAt`).
-/

namespace LinearProgram

open List

variable {terms terms' : List (VarKey × Number)} {c : Int} {key : VarKey} {m : Model}
  {p : Polynomial}

/-! ## Numbers -/

namespace Number

/-- The exact value of a number; NaN and the infinities have none. -/
def rational? : Number → Option ℚ
  | bool b => some (if b then 1 else 0)
  | int n => some n
  | float x => (Double.ofFloat x).ratio?.map fun ratio => (ratio.1 : ℚ) / ratio.2

def toRat (x : Number) : ℚ := x.rational?.getD 0

@[simp] theorem toRat_int (n : Int) : toRat (int n) = n := rfl

/-- Whether a number is no larger than a rational one. -/
def AtMost (x : Number) (q : ℚ) : Prop :=
  x.equal negInfinity = true ∨ ∃ r, x.rational? = some r ∧ r ≤ q

def AtLeast (x : Number) (q : ℚ) : Prop :=
  x.equal infinity = true ∨ ∃ r, x.rational? = some r ∧ q ≤ r

theorem int_equal_infinity (n : Int) (negative : Bool) :
    (int n).equal (float (Double.infinity negative)) = false := by
  have decoded : Double.ofFloat (Double.infinity negative) = .infinite negative := by
    cases negative <;> decide
  simp only [equal, compare?, decoded, Double.compareInt]
  cases negative <;> rfl

@[simp] theorem atMost_int {n : Int} {q : ℚ} : (int n).AtMost q ↔ (n : ℚ) ≤ q := by
  simp [AtMost, negInfinity, int_equal_infinity, rational?]

@[simp] theorem atLeast_int {n : Int} {q : ℚ} : (int n).AtLeast q ↔ q ≤ n := by
  simp [AtLeast, infinity, int_equal_infinity, rational?]

theorem atMost_negInfinity (q : ℚ) : negInfinity.AtMost q := .inl (by decide)

theorem atLeast_infinity (q : ℚ) : infinity.AtLeast q := .inl (by decide)

@[simp] theorem isZero_int (n : Int) : (int n).isZero = decide (n = 0) :=
  equal_of_toInt rfl rfl

@[simp] theorem less_int (m n : Int) : (int m).less (int n) = decide (m < n) := by
  simp only [less, compare?, toInt?, Option.getD_some, ← Std.compare_eq_lt]
  cases compare m n <;> rfl

@[simp] theorem lessEq_int (m n : Int) : (int m).lessEq (int n) = decide (m ≤ n) := by
  simp only [lessEq, compare?, toInt?, Option.getD_some, ← Std.isLE_compare]
  cases compare m n <;> rfl

end Number

/-- The exact value of a value that is a number. -/
def Value.rational? : Value → Option ℚ
  | .number x | .cell x => x.rational?
  | _ => Option.none

def Value.toRat (v : Value) : ℚ := v.rational?.getD 0

/-! ## Assignments -/

/-- A rational number for every instance; keys that name one instance have one value. -/
structure Assignment where
  value : VarKey → ℚ
  respects : ∀ {k k' : VarKey}, k.equal k' = true → value k = value k'

def Assignment.uniform (q : ℚ) : Assignment := ⟨fun _ => q, fun _ => rfl⟩

/-- How two values relate. -/
def Relation.Relates : Relation → ℚ → ℚ → Prop
  | .equal, x, y => x = y
  | .atMost, x, y => x ≤ y
  | .atLeast, x, y => y ≤ x

namespace VariableKind

/-- Whether a variable of this kind may have a value. -/
def Admits : VariableKind → ℚ → Prop
  | continuous, _ => True
  | integer, q | binary, q => ∃ n : Int, q = n

end VariableKind

namespace Variable

/-- Whether a value respects the bounds and the kind of a variable. -/
structure Allows (v : Variable) (q : ℚ) : Prop where
  lower : v.bounds.1.AtMost q
  upper : v.bounds.2.AtLeast q
  kind : v.kind.Admits q

def Admits (v : Variable) (a : Assignment) : Prop := v.Allows (a.value v.key)

end Variable

/-- Whether an assignment respects the bounds and kinds of all variables. -/
def Model.Admits (m : Model) (a : Assignment) : Prop := ∀ v ∈ m.columns, v.Admits a

theorem Model.Admits.congr {a a' : Assignment} (admits : m.Admits a)
    (columns : ∀ v ∈ m.columns, a'.value v.key = a.value v.key) : m.Admits a' := by
  intro v mem
  unfold Variable.Admits
  rw [columns v mem]
  exact admits v mem

theorem Model.declared?_some {v : Variable} (found : m.declared? key = some v) :
    v ∈ m.columns ∧ v.key.equal key = true :=
  ⟨mem_of_find?_eq_some found,
    find?_some (p := fun u : Variable => u.key.equal key) found⟩

/-! ## Values of polynomials -/

namespace Polynomial

/-- The sum of some terms. -/
def sumAt (a : Assignment) (terms : List (VarKey × Number)) : ℚ :=
  (terms.map fun term => term.2.toRat * a.value term.1).sum

def valueAt (p : Polynomial) (a : Assignment) : ℚ := p.constant.toRat + sumAt a p.terms

@[simp] theorem sumAt_nil (a : Assignment) : sumAt a [] = 0 := rfl

@[simp] theorem sumAt_cons (a : Assignment) (term : VarKey × Number)
    (terms : List (VarKey × Number)) :
    sumAt a (term :: terms) = term.2.toRat * a.value term.1 + sumAt a terms := by
  simp [sumAt]

@[simp] theorem valueAt_const (n : Number) (a : Assignment) : (const n).valueAt a = n.toRat := by
  simp [valueAt, const]

end Polynomial

def Constraint.HoldsAt (c : Constraint) (a : Assignment) : Prop :=
  c.relation.Relates (c.lhs.valueAt a) (c.rhs.valueAt a)

namespace Polynomial

/-- Terms with integer coefficients. -/
def IntTerms (terms : List (VarKey × Number)) : Prop := ∀ term ∈ terms, ∃ c : Int, term.2 = .int c

/-- A polynomial with integer coefficients, none of them zero, over declared instances. -/
structure Formed (m : Model) (p : Polynomial) : Prop where
  constant : ∃ n : Int, p.constant = .int n
  coefficients : ∀ term ∈ p.terms, ∃ c : Int, c ≠ 0 ∧ term.2 = .int c
  declared : ∀ term ∈ p.terms, (m.declared? term.1).isSome = true

/-- A polynomial whose coefficients and constant are integers. -/
structure Whole (p : Polynomial) : Prop where
  terms : IntTerms p.terms
  constant : ∃ n, p.constant = .int n

theorem Formed.intTerms (formed : p.Formed m) : IntTerms p.terms := by
  intro term mem
  obtain ⟨c, -, coefficient⟩ := formed.coefficients term mem
  exact ⟨c, coefficient⟩

theorem Formed.whole (formed : p.Formed m) : p.Whole :=
  ⟨formed.intTerms, formed.constant⟩

theorem Formed.mono {m' : Model} (formed : p.Formed m)
    (declared : ∀ key, (m.declared? key).isSome = true → (m'.declared? key).isSome = true) :
    p.Formed m' :=
  ⟨formed.constant, formed.coefficients,
    fun term mem => declared term.1 (formed.declared term mem)⟩

/-- Polynomials over the columns of a model have one value at assignments that agree on them. -/
theorem valueAt_congr (declared : ∀ term ∈ p.terms, (m.declared? term.1).isSome = true)
    {a a' : Assignment} (columns : ∀ v ∈ m.columns, a'.value v.key = a.value v.key) :
    p.valueAt a' = p.valueAt a := by
  have terms : ∀ term ∈ p.terms, a'.value term.1 = a.value term.1 := by
    intro term mem
    obtain ⟨v, found⟩ := Option.isSome_iff_exists.mp (declared term mem)
    obtain ⟨known, same⟩ := Model.declared?_some found
    rw [← a'.respects same, ← a.respects same]
    exact columns v known
  simp only [valueAt, sumAt]
  congr 2
  exact map_congr_left fun term mem => by rw [terms term mem]

theorem Formed.valueAt_congr (formed : p.Formed m) {a a' : Assignment}
    (columns : ∀ v ∈ m.columns, a'.value v.key = a.value v.key) : p.valueAt a' = p.valueAt a :=
  Polynomial.valueAt_congr formed.declared columns

theorem formed_const (m : Model) (n : Int) : (const (.int n)).Formed m :=
  ⟨⟨n, rfl⟩, by simp [const], by simp [const]⟩

theorem formed_ofInts (terms : List (VarKey × Int)) (n : Int) (nonzero : ∀ term ∈ terms, term.2 ≠ 0)
    (declared : ∀ term ∈ terms, (m.declared? term.1).isSome = true) :
    Formed m ⟨terms.map fun term => (term.1, .int term.2), .int n⟩ := by
  refine ⟨⟨n, rfl⟩, ?_, ?_⟩
  · intro term mem
    obtain ⟨t, inside, rfl⟩ := mem_map.mp mem
    exact ⟨t.2, nonzero t inside, rfl⟩
  · intro term mem
    obtain ⟨t, inside, rfl⟩ := mem_map.mp mem
    exact declared t inside

/-- Dropping the terms with coefficient zero changes no value. -/
theorem sumAt_filter (a : Assignment) {terms : List (VarKey × Number)} (exact : IntTerms terms) :
    sumAt a (terms.filter fun term => !term.2.isZero) = sumAt a terms := by
  induction terms with
  | nil => rfl
  | cons term _ ih =>
    have tail := ih fun t mem => exact t (mem_cons_of_mem _ mem)
    obtain ⟨c, coefficient⟩ := exact term mem_cons_self
    by_cases zero : c = 0
    · rw [filter_cons_of_neg (by simp [coefficient, zero]), tail, sumAt_cons, coefficient,
        zero]
      simp
    · rw [filter_cons_of_pos (by simp [coefficient, zero]), sumAt_cons, tail, sumAt_cons]

theorem formed_ofTerms (n : Int) (exact : IntTerms terms)
    (declared : (ofTerms terms (.int n)).Over fun key => (m.declared? key).isSome = true) :
    (ofTerms terms (.int n)).Formed m where
  constant := ⟨n, rfl⟩
  coefficients term mem := by
    obtain ⟨kept, nonzero⟩ := mem_filter.mp mem
    obtain ⟨c, coefficient⟩ := exact term kept
    refine ⟨c, ?_, coefficient⟩
    simpa [coefficient] using nonzero
  declared

theorem whole_ofTerms (n : Int) (exact : IntTerms terms) : (ofTerms terms (.int n)).Whole :=
  ⟨fun term mem => exact term (mem_filter.mp mem).1, n, rfl⟩

theorem valueAt_ofTerms (a : Assignment) {terms : List (VarKey × Number)} (n : Int)
    (exact : IntTerms terms) : (ofTerms terms (.int n)).valueAt a = n + sumAt a terms := by
  simp only [valueAt, ofTerms, sumAt_filter a exact, Number.toRat_int]

theorem formed_ofKey (declared : (m.declared? key).isSome = true) : (ofKey key).Formed m := by
  refine formed_ofTerms 0 (fun term mem => ?_) (over_ofKey declared)
  rw [mem_singleton.mp mem]
  exact ⟨1, rfl⟩

@[simp] theorem valueAt_ofKey (key : VarKey) (a : Assignment) :
    (ofKey key).valueAt a = a.value key := by
  rw [ofKey, valueAt_ofTerms a 0 (fun term mem => ⟨1, by rw [mem_singleton.mp mem]⟩)]
  simp

/-! ### Arithmetic -/

/-- One more multiple of an instance. Integers do not overflow. -/
theorem exists_addTerm (key : VarKey) (c : Int) {terms : List (VarKey × Number)}
    (exact : IntTerms terms) :
    ∃ terms', addTerm key (.int c) terms = .ok terms' ∧ IntTerms terms'
      ∧ ∀ a : Assignment, sumAt a terms' = sumAt a terms + c * a.value key := by
  induction terms with
  | nil =>
    refine ⟨_, rfl, fun term mem => ?_, fun a => by simp⟩
    rw [mem_singleton.mp mem]
    exact ⟨0 + c, rfl⟩
  | cons first _ ih =>
    rw [IntTerms, forall_mem_cons] at exact
    obtain ⟨⟨d, coefficient⟩, others⟩ := exact
    rw [addTerm]
    split
    case isTrue same =>
      rw [coefficient]
      refine ⟨_, rfl, forall_mem_cons.mpr ⟨⟨d + c, rfl⟩, others⟩, fun a => ?_⟩
      simp only [sumAt_cons, coefficient, Number.toRat_int, a.respects same, Int.cast_add]
      ring
    case isFalse =>
      -- another instance: the term goes further down
      obtain ⟨new, tail, exact', sums⟩ := ih others
      rw [tail]
      refine ⟨_, rfl, forall_mem_cons.mpr ⟨⟨d, coefficient⟩, exact'⟩, fun a => ?_⟩
      rw [sumAt_cons, sumAt_cons, sums a]
      ring

theorem exists_addTerms {new : List (VarKey × Number)} (exact : IntTerms terms)
    (exact' : IntTerms new) :
    ∃ terms', new.foldlM (fun terms term => addTerm term.1 term.2 terms) terms = .ok terms'
      ∧ IntTerms terms' ∧ ∀ a : Assignment, sumAt a terms' = sumAt a terms + sumAt a new := by
  induction new generalizing terms with
  | nil => exact ⟨terms, rfl, exact, fun a => by simp⟩
  | cons first _ ih =>
    rw [IntTerms, forall_mem_cons] at exact'
    obtain ⟨⟨c, coefficient⟩, others⟩ := exact'
    obtain ⟨middle, once, exactMiddle, sumMiddle⟩ := exists_addTerm first.1 c exact
    obtain ⟨terms', added, exactEnd, sumEnd⟩ := ih exactMiddle others
    refine ⟨terms', ?_, exactEnd, fun a => ?_⟩
    · rw [foldlM_cons, coefficient, once]
      exact added
    · rw [sumEnd a, sumMiddle a, sumAt_cons, coefficient, Number.toRat_int]
      ring

theorem exists_scaleTerms (c : Int) {terms : List (VarKey × Number)} (exact : IntTerms terms) :
    ∃ terms', (terms.mapM fun term => do
        let x ← orOverflow (term.2.mul (.int c))
        pure (term.1, x)) = Except.ok terms'
      ∧ IntTerms terms' ∧ ∀ a : Assignment, sumAt a terms' = sumAt a terms * c := by
  induction terms with
  | nil => exact ⟨[], rfl, exact, fun a => by simp⟩
  | cons first _ ih =>
    rw [IntTerms, forall_mem_cons] at exact
    obtain ⟨⟨d, coefficient⟩, others⟩ := exact
    obtain ⟨terms', tail, exact', sums⟩ := ih others
    rw [mapM_cons, coefficient, tail]
    refine ⟨_, rfl, forall_mem_cons.mpr ⟨⟨d * c, rfl⟩, exact'⟩, fun a => ?_⟩
    rw [sumAt_cons, sumAt_cons, sums a, coefficient, Number.toRat_int, Number.toRat_int,
      Int.cast_mul]
    ring

/-- What exact arithmetic gives: integer terms and an integer constant. -/
def Computes (result : Except Error Polynomial) (value : Assignment → ℚ) : Prop :=
  ∃ terms, ∃ n : Int, result = .ok (ofTerms terms (.int n)) ∧ IntTerms terms
    ∧ ∀ a, n + sumAt a terms = value a

variable {m : Model} {p q r : Polynomial}

theorem Computes.formed {value : Assignment → ℚ} (computes : Computes (.ok r) value)
    (declared : r.Over fun key => (m.declared? key).isSome = true) :
    r.Formed m ∧ ∀ a : Assignment, r.valueAt a = value a := by
  obtain ⟨terms, n, ⟨⟩, exact, sums⟩ := computes
  refine ⟨formed_ofTerms n exact declared, fun a => ?_⟩
  rw [valueAt_ofTerms a n exact, sums a]

theorem Whole.add (left : p.Whole) (right : q.Whole) :
    Computes (p.add q) fun a => p.valueAt a + q.valueAt a := by
  obtain ⟨b, constantLeft⟩ := left.constant
  obtain ⟨c, constantRight⟩ := right.constant
  obtain ⟨terms, joined, exact, sums⟩ := exists_addTerms left.terms right.terms
  refine ⟨terms, b + c, ?_, exact, fun a => ?_⟩
  · rw [Polynomial.add, joined, constantLeft, constantRight]
    rfl
  · show _ = p.valueAt a + q.valueAt a
    rw [sums a, valueAt, valueAt, constantLeft, constantRight, Number.toRat_int, Number.toRat_int,
      Int.cast_add]
    ring

theorem Whole.scale (whole : p.Whole) (c : Int) :
    Computes (p.scale (.int c)) fun a => p.valueAt a * c := by
  obtain ⟨n, constant⟩ := whole.constant
  obtain ⟨terms, times, exact, sums⟩ := exists_scaleTerms c whole.terms
  refine ⟨terms, n * c, ?_, exact, fun a => ?_⟩
  · rw [Polynomial.scale, times, constant]
    rfl
  · show _ = p.valueAt a * c
    rw [sums a, valueAt, constant, Number.toRat_int, Int.cast_mul]
    ring

theorem Whole.sub (left : p.Whole) (right : q.Whole) :
    Computes (p.sub q) fun a => p.valueAt a - q.valueAt a := by
  obtain ⟨negatives, n, negated, exactNegatives, negativeSums⟩ := right.scale (-1)
  obtain ⟨terms, k, added, exact, sums⟩ := left.add (whole_ofTerms n exactNegatives)
  refine ⟨terms, k, ?_, exact, fun a => ?_⟩
  · rw [Polynomial.sub, neg, negated]
    exact added
  · have sum : _ = p.valueAt a + (ofTerms negatives (.int n)).valueAt a := sums a
    have negative : _ = q.valueAt a * (-1 : Int) := negativeSums a
    rw [sum, valueAt_ofTerms a n exactNegatives, negative]
    push_cast
    ring

theorem add_ok (left : p.Formed m) (right : q.Formed m) (added : p.add q = .ok r) :
    r.Formed m ∧ ∀ a : Assignment, r.valueAt a = p.valueAt a + q.valueAt a :=
  (added ▸ left.whole.add right.whole : Computes (.ok r) _).formed
    (Over.add left.declared right.declared added)

theorem scale_ok (formed : p.Formed m) (scaled : p.scale (.int c) = .ok r) :
    r.Formed m ∧ ∀ a : Assignment, r.valueAt a = p.valueAt a * c :=
  (scaled ▸ formed.whole.scale c : Computes (.ok r) _).formed (Over.scale formed.declared scaled)

theorem neg_ok (formed : p.Formed m) (negated : p.neg = .ok r) :
    r.Formed m ∧ ∀ a : Assignment, r.valueAt a = -p.valueAt a := by
  obtain ⟨formed', values⟩ := scale_ok formed negated
  refine ⟨formed', fun a => ?_⟩
  rw [values a]
  push_cast
  ring

theorem sub_ok (left : p.Formed m) (right : q.Formed m) (minus : p.sub q = .ok r) :
    r.Formed m ∧ ∀ a : Assignment, r.valueAt a = p.valueAt a - q.valueAt a :=
  (minus ▸ left.whole.sub right.whole : Computes (.ok r) _).formed
    (Over.sub left.declared right.declared minus)

/-- A polynomial without variables is worth its constant everywhere. -/
theorem valueAt_of_isConstant (constant : p.isConstant = true) (a : Assignment) :
    p.valueAt a = p.constant.toRat := by
  have none : p.terms = [] := List.isEmpty_iff.mp constant
  simp [valueAt, none]

theorem mul_ok (left : p.Formed m) (right : q.Formed m) (times : p.mul q = .ok r) :
    r.Formed m ∧ ∀ a : Assignment, r.valueAt a = p.valueAt a * q.valueAt a := by
  rw [mul] at times
  split at times
  case isTrue constant =>
    obtain ⟨b, isB⟩ := left.constant
    rw [isB] at times
    obtain ⟨formed, values⟩ := scale_ok right times
    refine ⟨formed, fun a => ?_⟩
    rw [values a, valueAt_of_isConstant constant, isB, Number.toRat_int]
    ring
  case isFalse =>
    split at times
    case isTrue constant =>
      obtain ⟨b, isB⟩ := right.constant
      rw [isB] at times
      obtain ⟨formed, values⟩ := scale_ok left times
      refine ⟨formed, fun a => ?_⟩
      rw [values a, valueAt_of_isConstant constant, isB, Number.toRat_int]
    case isFalse => exact absurd times (raise_ne_ok _ _)

/-! ### Evaluation -/

/-- The running sum of an evaluation at integers. -/
theorem evaluateTerms_ints {z : VarKey → Int} {a : Assignment} (whole : ∀ key, a.value key = z key)
    {terms : List (VarKey × Number)} (exact : IntTerms terms) (n : Int) :
    ∃ k : Int, terms.foldlM (fun (sum : Number) (term : VarKey × Number) => do
        match some (Number.int (z term.1)) with
        | some x => orOverflow (sum.add (← orOverflow (term.2.mul x)))
        | none => breakDown .missingKey) (.int n) = Except.ok (.int k)
      ∧ (k : ℚ) = n + sumAt a terms := by
  induction terms generalizing n with
  | nil => exact ⟨n, rfl, by simp⟩
  | cons first _ ih =>
    obtain ⟨c, coefficient⟩ := exact first mem_cons_self
    obtain ⟨k, ran, total⟩ :=
      ih (fun t mem => exact t (mem_cons_of_mem _ mem)) (n + c * z first.1)
    refine ⟨k, ?_, ?_⟩
    · rw [foldlM_cons, coefficient]
      exact ran
    · rw [total, sumAt_cons, coefficient, Number.toRat_int, whole, Int.cast_add, Int.cast_mul]
      ring

/-- At integers the value of a polynomial is what its evaluation computes. -/
theorem Whole.evaluate_ints (exact : p.Whole) {z : VarKey → Int} {a : Assignment}
    (whole : ∀ key, a.value key = z key) :
    ∃ n : Int, p.evaluate (fun key => some (.int (z key))) = .ok (.int n)
      ∧ (n : ℚ) = p.valueAt a := by
  obtain ⟨k, ran, total⟩ := evaluateTerms_ints whole exact.terms 0
  obtain ⟨b, constant⟩ := exact.constant
  refine ⟨b + k, ?_, ?_⟩
  · rw [evaluate, constant]
    exact bind_eq_ok.mpr ⟨.int k, ran, rfl⟩
  · rw [Int.cast_add, total, valueAt, constant, Number.toRat_int]
    simp

end Polynomial

theorem Relation.holds_int (rel : Relation) (n : Int) :
    rel.holds (.int n) = true ↔ rel.Relates n 0 := by
  cases rel with
  | equal | atMost | atLeast => simp [holds, Relates]

end LinearProgram
