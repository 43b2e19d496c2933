import LinearProgram.Argument
import LinearProgram.Proofs.ExactRange

/-!
# Canonical polynomials

No coefficient of a canonical polynomial is zero and no instance has two terms
(`Polynomial.Canonical`). All operations keep this (`Polynomial.Represents`), and polynomials with
the same values are equal (`Polynomial.Canonical.equal_iff`).
-/

namespace LinearProgram

open List

/-- An integer for every instance. -/
structure IntAssignment where
  value : VarKey → Int
  respects : ∀ {k k' : VarKey}, k.equal k' = true → value k = value k'

namespace IntAssignment

/-- The integers as rational numbers. -/
def rational (z : IntAssignment) : Assignment where
  value key := z.value key
  respects same := by rw [z.respects same]

def number? (z : IntAssignment) (key : VarKey) : Option Number := some (.int (z.value key))

/-- One for a single instance and zero for all others. -/
def single {key : VarKey} (legal : key.isKey = true) : IntAssignment where
  value k := if k.equal key then 1 else 0
  respects same := by rw [VarKey.equal_congr legal same]

def zero : IntAssignment := ⟨fun _ => 0, fun _ => rfl⟩

end IntAssignment

namespace Polynomial

variable {terms terms' : List (VarKey × Number)} {key : VarKey} {x : Number} {c n : Int}
  {p q r : Polynomial} {value : Assignment → ℚ}

/-! ## Terms -/

theorem Gathered.addTerms {new : List (VarKey × Number)} (gathered : Gathered terms)
    (right : Gathered new)
    (added : new.foldlM (fun terms term => addTerm term.1 term.2 terms) terms = .ok terms') :
    Gathered terms' := by
  refine foldlM_keeps Gathered added gathered fun terms gathered term mem next first => ?_
  obtain ⟨c, coefficient⟩ := right.integers term mem
  obtain ⟨_, computed, exact, -⟩ := exists_addTerm term.1 c gathered.integers
  rw [← coefficient] at computed
  cases first.symm.trans computed
  exact ⟨exact, addTerm_over (K := (·.isKey = true)) gathered.keys (right.keys term mem) first,
    distinct_addTerm gathered.distinct first⟩

theorem Gathered.scaleTerms (gathered : Gathered terms) (c : Int)
    (scaled : (terms.mapM fun term => do
      let y ← orOverflow (term.2.mul (.int c))
      pure (term.1, y)) = Except.ok terms') : Gathered terms' := by
  obtain ⟨_, computed, exact, -⟩ := exists_scaleTerms c gathered.integers
  cases scaled.symm.trans computed
  have legal : ∀ key ∈ terms.map (·.1), key.isKey = true := forall_mem_map.mpr gathered.keys
  have apart : (terms.map (·.1)).Pairwise fun k k' : VarKey => k.equal k' = false :=
    pairwise_map.mpr gathered.distinct
  rw [← scaleTerms_keys scaled] at legal apart
  exact ⟨exact, forall_mem_map.mp legal, pairwise_map.mp apart⟩

/-! ## Canonical results -/

theorem Canonical.whole (canonical : p.Canonical) : p.Whole :=
  ⟨canonical.integers, canonical.constant⟩

theorem canonical_const (n : Int) : (const (.int n)).Canonical :=
  ⟨gathered_nil, nofun, n, rfl⟩

/-- A canonical polynomial that is worth a given value at every assignment. At integers this is also
what its evaluation computes. -/
structure Represents (p : Polynomial) (value : Assignment → ℚ) : Prop where
  canonical : p.Canonical
  valueAt : ∀ a, p.valueAt a = value a
  evaluate : ∀ z : IntAssignment, ∃ n : Int,
    p.evaluate z.number? = .ok (.int n) ∧ (n : ℚ) = value z.rational

theorem Canonical.represents (canonical : p.Canonical) (values : ∀ a, p.valueAt a = value a) :
    p.Represents value where
  canonical := canonical
  valueAt := values
  evaluate z := by
    obtain ⟨n, computed, isValue⟩ := canonical.whole.evaluate_ints (a := z.rational) fun _ => rfl
    exact ⟨n, computed, isValue.trans (values _)⟩

theorem Computes.exists_ok {result : Except Error Polynomial} (computes : Computes result value) :
    ∃ r, result = .ok r ∧ ∀ a, r.valueAt a = value a := by
  obtain ⟨terms, n, computed, exact, values⟩ := computes
  exact ⟨_, computed, fun a => (valueAt_ofTerms a n exact).trans (values a)⟩

theorem Canonical.add (left : p.Canonical) (right : q.Canonical) :
    ∃ r, p.add q = .ok r ∧ r.Represents fun a => p.valueAt a + q.valueAt a := by
  obtain ⟨r, added, values⟩ := (left.whole.add right.whole).exists_ok
  obtain ⟨b, constant⟩ := left.constant
  obtain ⟨c, constant'⟩ := right.constant
  refine ⟨r, added, Canonical.represents ?_ values⟩
  obtain ⟨terms, joined, added⟩ := bind_eq_ok.mp added
  rw [constant, constant'] at added
  cases added
  exact canonical_ofTerms (left.toGathered.addTerms right.toGathered joined) (b + c)

theorem Canonical.scale (canonical : p.Canonical) (n : Int) :
    ∃ r, p.scale (.int n) = .ok r ∧ r.Represents fun a => p.valueAt a * n := by
  obtain ⟨r, scaled, values⟩ := (canonical.whole.scale n).exists_ok
  obtain ⟨b, constant⟩ := canonical.constant
  refine ⟨r, scaled, Canonical.represents ?_ values⟩
  obtain ⟨terms, times, scaled⟩ := bind_eq_ok.mp scaled
  rw [constant] at scaled
  cases scaled
  exact canonical_ofTerms (canonical.toGathered.scaleTerms n times) (b * n)

theorem Canonical.neg (canonical : p.Canonical) :
    ∃ r, p.neg = .ok r ∧ r.Represents fun a => -p.valueAt a := by
  obtain ⟨r, negated, represents⟩ := canonical.scale (-1)
  refine ⟨r, negated, represents.canonical.represents fun a => ?_⟩
  rw [represents.valueAt a]
  push_cast
  ring

theorem Canonical.sub (left : p.Canonical) (right : q.Canonical) :
    ∃ r, p.sub q = .ok r ∧ r.Represents fun a => p.valueAt a - q.valueAt a := by
  obtain ⟨negative, negated, represents⟩ := right.neg
  obtain ⟨r, added, sums⟩ := left.add represents.canonical
  refine ⟨r, ?_, sums.canonical.represents fun a => ?_⟩
  · rw [Polynomial.sub, negated]
    exact added
  · rw [sums.valueAt a, represents.valueAt a]
    ring

theorem Canonical.linearPart (canonical : p.Canonical) :
    p.linearPart.Represents fun a => p.valueAt a - p.constant.toRat := by
  refine (canonical_ofTerms canonical.toGathered 0).represents fun a => ?_
  rw [valueAt_ofTerms a 0 canonical.integers, valueAt]
  push_cast
  ring

/-- A product with a constant factor on either side. -/
theorem Canonical.mul (left : p.Canonical) (right : q.Canonical)
    (constant : p.isConstant = true ∨ q.isConstant = true) :
    ∃ r, p.mul q = .ok r ∧ r.Represents fun a => p.valueAt a * q.valueAt a := by
  unfold Polynomial.mul
  split
  case isTrue isConstant =>
    obtain ⟨b, isB⟩ := left.constant
    obtain ⟨r, scaled, represents⟩ := right.scale b
    refine ⟨r, by rw [isB, scaled], represents.canonical.represents fun a => ?_⟩
    rw [represents.valueAt a, valueAt_of_isConstant isConstant, isB, Number.toRat_int]
    ring
  case isFalse varies =>
    have isConstant := constant.resolve_left varies
    obtain ⟨b, isB⟩ := right.constant
    obtain ⟨r, scaled, represents⟩ := left.scale b
    refine ⟨r, by rw [if_pos isConstant, isB, scaled], represents.canonical.represents fun a => ?_⟩
    rw [represents.valueAt a, valueAt_of_isConstant isConstant, isB, Number.toRat_int]

theorem mul_refused (left : p.isConstant = false) (right : q.isConstant = false) :
    p.mul q = .error (.refused (.product p q)) := by
  unfold Polynomial.mul
  rw [left, right]
  rfl

/-! ## Equality -/

/-- Every term has a counterpart with the same coefficient among some others. -/
def Matched (terms others : List (VarKey × Number)) : Prop :=
  ∀ term ∈ terms, ∃ other ∈ others, other.1.equal term.1 = true ∧ term.2.equal other.2 = true

/-- Different terms have different counterparts, so the others are these and some more. -/
theorem Matched.exists_rest {others : List (VarKey × Number)} (matched : Matched terms others)
    (left : Gathered terms) (right : Gathered others) :
    ∃ rest, others.length = terms.length + rest.length
      ∧ ∀ a, sumAt a others = sumAt a terms + sumAt a rest := by
  induction terms generalizing others with
  | nil => exact ⟨others, by simp, fun a => by simp⟩
  | cons term rest ih =>
    obtain ⟨⟨other, mem, sameKey, sameNumber⟩, later⟩ := forall_mem_cons.mp matched
    obtain ⟨before, after, rfl⟩ := append_of_mem mem
    have fresh := (pairwise_cons.mp left.distinct).1
    -- the counterpart of a later term is another one
    have matched' : Matched rest (before ++ after) := by
      intro t inside
      obtain ⟨u, known, same, number⟩ := later t inside
      refine ⟨u, ?_, same, number⟩
      rcases mem_append.mp known with early | late
      · exact mem_append_left _ early
      · rcases mem_cons.mp late with rfl | late
        · have legal := left.keys t (mem_cons_of_mem _ inside)
          rw [VarKey.equal_congr legal sameKey, fresh t inside] at same
          cases same
        · exact mem_append_right _ late
    have right' : Gathered (before ++ after) := by
      have sub : (before ++ after).Sublist (before ++ other :: after) :=
        List.Sublist.append_left (sublist_cons_self _ _) _
      exact ⟨fun t inside => right.integers t (sub.subset inside),
        fun t inside => right.keys t (sub.subset inside), right.distinct.sublist sub⟩
    obtain ⟨more, length, sums⟩ := ih matched' left.tail right'
    obtain ⟨b, isB⟩ := left.integers term mem_cons_self
    obtain ⟨c, isC⟩ := right.integers other (by simp)
    have equal : b = c := by
      rw [isB, isC, Number.equal_of_toInt rfl rfl] at sameNumber
      exact of_decide_eq_true sameNumber
    refine ⟨more, ?_, fun a => ?_⟩
    · simp only [length_append, length_cons] at length ⊢
      omega
    · have parts := sums a
      simp only [sumAt, map_append, sum_append, map_cons, sum_cons] at parts ⊢
      rw [isB, isC, equal, a.respects sameKey]
      linarith

/-- The terms of other instances are worth nothing where only one instance has a value. -/
theorem sumAt_single_of_fresh (legal : key.isKey = true)
    (fresh : ∀ term ∈ terms, term.1.equal key = false) :
    sumAt (IntAssignment.single legal).rational terms = 0 := by
  induction terms with
  | nil => rfl
  | cons term _ ih =>
    rw [forall_mem_cons] at fresh
    have none : (IntAssignment.single legal).rational.value term.1 = 0 := by
      simp [IntAssignment.rational, IntAssignment.single, fresh.1]
    rw [sumAt_cons, none, ih fresh.2]
    ring

/-- Where only one instance has a value, and it is one, terms are worth the coefficient of that
instance. -/
theorem sumAt_single_of_mem (gathered : Gathered terms) (legal : key.isKey = true)
    {term : VarKey × Number} (mem : term ∈ terms) (same : term.1.equal key = true) :
    sumAt (IntAssignment.single legal).rational terms = term.2.toRat := by
  obtain ⟨before, after, rfl⟩ := append_of_mem mem
  have legal' := gathered.keys term mem
  obtain ⟨-, behind, apart⟩ := pairwise_append.mp gathered.distinct
  have fresh : ∀ t ∈ before ++ after, t.1.equal key = false := by
    intro t inside
    have known : t ∈ before ++ term :: after := by
      rcases mem_append.mp inside with early | late <;> simp [*]
    have different : term.1.equal t.1 = false := by
      rcases mem_append.mp inside with early | late
      · rw [VarKey.equal_comm legal']
        exact apart t early term mem_cons_self
      · exact (pairwise_cons.mp behind).1 t late
    rw [← VarKey.equal_comm legal, ← VarKey.equal_congr (gathered.keys t known) same]
    exact different
  have others := sumAt_single_of_fresh legal fresh
  have one : (IntAssignment.single legal).rational.value term.1 = 1 := by
    simp [IntAssignment.rational, IntAssignment.single, same]
  simp only [sumAt, map_append, sum_append, map_cons, sum_cons] at others ⊢
  rw [one]
  linarith

/-- A coefficient can be read off the values. -/
theorem Canonical.matched (left : p.Canonical) (right : q.Canonical)
    (sums : ∀ z : IntAssignment, sumAt z.rational p.terms = sumAt z.rational q.terms) :
    Matched p.terms q.terms := by
  intro term mem
  obtain ⟨c, coefficient⟩ := left.integers term mem
  have legal := left.keys term mem
  have worth := sumAt_single_of_mem left.toGathered legal mem (VarKey.equal_self legal)
  rw [sums, coefficient, Number.toRat_int] at worth
  have nonzero : (c : ℚ) ≠ 0 := by
    have test := left.nonzero term mem
    rw [coefficient, Number.isZero_int, decide_eq_false_iff_not] at test
    exact_mod_cast test
  by_cases found : ∃ other ∈ q.terms, other.1.equal term.1 = true
  · obtain ⟨other, known, same⟩ := found
    refine ⟨other, known, same, ?_⟩
    obtain ⟨d, coefficient'⟩ := right.integers other known
    rw [sumAt_single_of_mem right.toGathered legal known same, coefficient',
      Number.toRat_int] at worth
    rw [coefficient, coefficient', Number.equal_of_toInt rfl rfl, decide_eq_true_eq]
    exact_mod_cast worth.symm
  · -- without a term for the instance it would be worth nothing
    have fresh : ∀ other ∈ q.terms, other.1.equal term.1 = false := fun other known =>
      Bool.eq_false_iff.mpr fun same => found ⟨other, known, same⟩
    rw [sumAt_single_of_fresh legal fresh] at worth
    exact absurd worth.symm nonzero

theorem equal_iff_matched : p.equal q = true
    ↔ p.terms.length = q.terms.length ∧ Matched p.terms q.terms
      ∧ p.constant.equal q.constant = true := by
  simp only [Polynomial.equal, Matched, Bool.and_eq_true, beq_iff_eq, all_eq_true,
    any_eq_true, and_assoc]

theorem sumAt_zero (terms : List (VarKey × Number)) :
    sumAt IntAssignment.zero.rational terms = 0 := by
  induction terms with
  | nil => rfl
  | cons term _ ih =>
    have none : IntAssignment.zero.rational.value term.1 = 0 := Int.cast_zero
    rw [sumAt_cons, none, ih]
    ring

section

variable (left : p.Canonical) (right : q.Canonical)
include left right

theorem Canonical.constant_equal :
    p.constant.equal q.constant = true ↔ p.constant.toRat = q.constant.toRat := by
  obtain ⟨b, isB⟩ := left.constant
  obtain ⟨c, isC⟩ := right.constant
  rw [isB, isC, Number.equal_of_toInt rfl rfl, decide_eq_true_eq, Number.toRat_int,
    Number.toRat_int, Int.cast_inj]

/-- Polynomials that agree at integers are equal. -/
theorem Canonical.equal_of_values
    (same : ∀ z : IntAssignment, p.valueAt z.rational = q.valueAt z.rational) :
    p.equal q = true := by
  have constants : p.constant.toRat = q.constant.toRat := by
    simpa only [valueAt, sumAt_zero, add_zero] using same .zero
  have sums : ∀ z : IntAssignment, sumAt z.rational p.terms = sumAt z.rational q.terms := by
    intro z
    have values := same z
    rw [valueAt, valueAt, constants] at values
    exact add_left_cancel values
  have there := left.matched right sums
  have back := right.matched left fun z => (sums z).symm
  obtain ⟨more, length, -⟩ := there.exists_rest left.toGathered right.toGathered
  obtain ⟨less, length', -⟩ := back.exists_rest right.toGathered left.toGathered
  exact equal_iff_matched.mpr ⟨by omega, there, (left.constant_equal right).mpr constants⟩

theorem Canonical.values_of_equal (equal : p.equal q = true) (a : Assignment) :
    p.valueAt a = q.valueAt a := by
  obtain ⟨length, matched, constants⟩ := equal_iff_matched.mp equal
  obtain ⟨rest, longer, sums⟩ := matched.exists_rest left.toGathered right.toGathered
  have none : rest = [] := length_eq_zero_iff.mp (by omega)
  rw [valueAt, valueAt, sums a, none, (left.constant_equal right).mp constants, sumAt_nil, add_zero]

/-- **Equality is equality of values.** -/
theorem Canonical.equal_iff :
    p.equal q = true ↔ ∀ a, p.valueAt a = q.valueAt a :=
  ⟨left.values_of_equal right, fun same => left.equal_of_values right fun z => same z.rational⟩

/-- It is enough to evaluate at integers. -/
theorem Canonical.equal_iff_evaluate :
    p.equal q = true ↔ ∀ z : IntAssignment, p.evaluate z.number? = q.evaluate z.number? := by
  have values : ∀ z : IntAssignment, p.evaluate z.number? = q.evaluate z.number?
      ↔ p.valueAt z.rational = q.valueAt z.rational := by
    intro z
    obtain ⟨m, computed, isValue⟩ := (left.represents fun _ => rfl).evaluate z
    obtain ⟨n, computed', isValue'⟩ := (right.represents fun _ => rfl).evaluate z
    rw [computed, computed', ← isValue, ← isValue', Int.cast_inj]
    simp
  constructor
  · intro equal z
    exact (values z).mpr (left.values_of_equal right equal _)
  · intro same
    exact left.equal_of_values right fun z => (values z).mp (same z)

end

/-- A polynomial has no variables exactly if its value never changes. -/
theorem Canonical.isConstant_iff (canonical : p.Canonical) :
    p.isConstant = true ↔ ∀ a a', p.valueAt a = p.valueAt a' := by
  constructor
  · intro constant a a'
    rw [valueAt_of_isConstant constant, valueAt_of_isConstant constant]
  · intro same
    obtain ⟨n, constant⟩ := canonical.constant
    have equal : p.equal (const (.int n)) = true := by
      refine (canonical.equal_iff (canonical_const n)).mpr fun a => ?_
      rw [same a IntAssignment.zero.rational, valueAt, sumAt_zero, constant, valueAt_const,
        add_zero]
    obtain ⟨length, -⟩ := equal_iff_matched.mp equal
    exact List.isEmpty_iff.mpr (length_eq_zero_iff.mp length)

end Polynomial

/-! ## Operands -/

namespace Argument

/-- An operand of exact arithmetic, with the polynomial that it is: a canonical one or an integer.
-/
inductive Denotes : Argument → Polynomial → Prop
  | polynomial {p : Polynomial} (canonical : p.Canonical) : Denotes (.polynomial p) p
  | number (n : Int) : Denotes (.value (.int n)) (.const (.int n))

variable {x y : Argument} {p q : Polynomial}

theorem Denotes.canonical (denotes : x.Denotes p) : p.Canonical := by
  cases denotes with
  | polynomial canonical => exact canonical
  | number n => exact Polynomial.canonical_const n

theorem Denotes.toPolynomial (denotes : x.Denotes p) : x.toPolynomial = .ok p := by
  cases denotes <;> rfl

section

variable (left : x.Denotes p) (right : y.Denotes q) (mixed : x = .polynomial p ∨ y = .polynomial q)
include left right mixed

/-- An operator applies to the polynomials that its operands are. Next to a number on the left it
may apply to them the other way round. -/
theorem operate_denotes (sign : Arithmetic) (quotient : sign ≠ .div)
    (values : Value → Value → Except Error Value)
    (f : Polynomial → Polynomial → Except Error Polynomial) :
    operate ⟨sign, values, f⟩ x y = .polynomial <$> f p q
      ∨ sign ≠ .sub ∧ p.isConstant = true
        ∧ operate ⟨sign, values, f⟩ x y = .polynomial <$> f q p := by
  cases left with
  | polynomial =>
    left
    rw [operate, right.toPolynomial]
    rfl
  | number =>
    obtain rfl : y = .polynomial q := mixed.resolve_left nofun
    cases sign with
    | div => exact absurd rfl quotient
    | sub => exact .inl rfl
    | add | mul => exact .inr ⟨nofun, rfl, rfl⟩

theorem Denotes.add :
    ∃ r, x.add y = .ok (.polynomial r) ∧ r.Represents fun a => p.valueAt a + q.valueAt a := by
  rcases operate_denotes left right mixed .add nofun Value.add Polynomial.add with
    direct | ⟨-, -, turned⟩
  · obtain ⟨r, added, represents⟩ := left.canonical.add right.canonical
    exact ⟨r, by rw [Argument.add, direct, added]; rfl, represents⟩
  · obtain ⟨r, added, represents⟩ := right.canonical.add left.canonical
    refine ⟨r, by rw [Argument.add, turned, added]; rfl, ?_⟩
    exact represents.canonical.represents fun a => (represents.valueAt a).trans (add_comm _ _)

theorem Denotes.sub :
    ∃ r, x.sub y = .ok (.polynomial r) ∧ r.Represents fun a => p.valueAt a - q.valueAt a := by
  rcases operate_denotes left right mixed .sub nofun Value.sub Polynomial.sub with
    direct | ⟨other, -⟩
  · obtain ⟨r, minus, represents⟩ := left.canonical.sub right.canonical
    exact ⟨r, by rw [Argument.sub, direct, minus]; rfl, represents⟩
  · exact absurd rfl other

theorem Denotes.mul (constant : p.isConstant = true ∨ q.isConstant = true) :
    ∃ r, x.mul y = .ok (.polynomial r) ∧ r.Represents fun a => p.valueAt a * q.valueAt a := by
  rcases operate_denotes left right mixed .mul nofun Value.mul Polynomial.mul with
    direct | ⟨-, isConstant, turned⟩
  · obtain ⟨r, times, represents⟩ := left.canonical.mul right.canonical constant
    exact ⟨r, by rw [Argument.mul, direct, times]; rfl, represents⟩
  · obtain ⟨r, times, represents⟩ := right.canonical.mul left.canonical (.inr isConstant)
    refine ⟨r, by rw [Argument.mul, turned, times]; rfl, ?_⟩
    exact represents.canonical.represents fun a => (represents.valueAt a).trans (mul_comm _ _)

theorem Denotes.mul_refused_iff :
    (∃ cause, x.mul y = .error (.refused cause) ∧ cause.kind = .nonLinear)
      ↔ p.isConstant = false ∧ q.isConstant = false := by
  constructor
  · rintro ⟨cause, refused, -⟩
    have vary : ¬ (p.isConstant = true ∨ q.isConstant = true) := by
      intro constant
      obtain ⟨r, times, -⟩ := left.mul right mixed constant
      rw [times] at refused
      cases refused
    rw [not_or, Bool.not_eq_true, Bool.not_eq_true] at vary
    exact vary
  · rintro ⟨varies, varies'⟩
    rcases operate_denotes left right mixed .mul nofun Value.mul Polynomial.mul with
      direct | ⟨-, isConstant, -⟩
    · exact ⟨.product p q, by rw [Argument.mul, direct, Polynomial.mul_refused varies varies']; rfl,
        rfl⟩
    · rw [isConstant] at varies
      cases varies

theorem Denotes.equal_iff :
    x.equal y = true ↔ p.equal q = true := by
  cases left with
  | polynomial => cases right <;> exact Iff.rfl
  | number n =>
    cases right with
    | number => exact absurd mixed (by simp)
    | polynomial canonical =>
      -- the polynomial on the right is asked
      show q.equal (.const (.int n)) = true ↔ _
      have number := Polynomial.canonical_const n
      rw [canonical.equal_iff number, number.equal_iff canonical]
      exact forall_congr' fun a => eq_comm

end

/-- **Arithmetic of canonical polynomials.** Sums, differences and products of polynomials, and of a
polynomial and an integer on either side, are canonical polynomials worth what the arithmetic of the
values gives; so are negatives, multiples and linear parts. A product is refused exactly if both
factors vary. Two operands are equal exactly if they have the same value everywhere. -/
theorem canonical_arithmetic (left : x.Denotes p) (right : y.Denotes q)
    (mixed : x = .polynomial p ∨ y = .polynomial q) :
    (∃ r, x.add y = .ok (.polynomial r) ∧ r.Represents fun a => p.valueAt a + q.valueAt a)
      ∧ (∃ r, x.sub y = .ok (.polynomial r) ∧ r.Represents fun a => p.valueAt a - q.valueAt a)
      ∧ (p.isConstant = true ∨ q.isConstant = true →
        ∃ r, x.mul y = .ok (.polynomial r) ∧ r.Represents fun a => p.valueAt a * q.valueAt a)
      ∧ ((∃ cause, x.mul y = .error (.refused cause) ∧ cause.kind = .nonLinear)
        ↔ p.isConstant = false ∧ q.isConstant = false)
      ∧ (p.isConstant = true ↔ ∀ a a', p.valueAt a = p.valueAt a')
      ∧ (∃ r, (Argument.polynomial p).neg = .ok (.polynomial r)
        ∧ r.Represents fun a => -p.valueAt a)
      ∧ (∀ n : Int, ∃ r, p.scale (.int n) = .ok r ∧ r.Represents fun a => p.valueAt a * n)
      ∧ (p.linearPart.Represents fun a => p.valueAt a - p.constant.toRat)
      ∧ (x.equal y = true ↔ ∀ a, p.valueAt a = q.valueAt a)
      ∧ (x.equal y = true ↔ ∀ z : IntAssignment, p.evaluate z.number? = q.evaluate z.number?) := by
  have isLeft := left.canonical
  have isRight := right.canonical
  refine ⟨left.add right mixed, left.sub right mixed, left.mul right mixed,
    left.mul_refused_iff right mixed, isLeft.isConstant_iff, ?_, isLeft.scale, isLeft.linearPart,
    (left.equal_iff right mixed).trans (isLeft.equal_iff isRight),
    (left.equal_iff right mixed).trans (isLeft.equal_iff_evaluate isRight)⟩
  obtain ⟨r, negated, represents⟩ := isLeft.neg
  exact ⟨r, by rw [Argument.neg, negated]; rfl, represents⟩

/-- `u - v + 2` and `v - 2` add up to `u`, and have no product. -/
theorem cancelling_arithmetic :
    let u : VarKey := ⟨"u", []⟩
    let v : VarKey := ⟨"v", []⟩
    let p : Polynomial := ⟨[(u, .int 1), (v, .int (-1))], .int 2⟩
    let q : Polynomial := ⟨[(v, .int 1)], .int (-2)⟩
    (Argument.polynomial p).Denotes p ∧ (Argument.polynomial q).Denotes q
      ∧ (∃ r, (Argument.polynomial p).add (.polynomial q) = .ok (.polynomial r)
        ∧ r.Represents fun a => a.value u)
      ∧ (∃ cause, (Argument.polynomial p).mul (.polynomial q) = .error (.refused cause)
        ∧ cause.kind = .nonLinear)
      ∧ (Argument.polynomial p).equal (.polynomial q) = false := by
  intro u v p q
  have left : (Argument.polynomial p).Denotes p := .polynomial <|
    @Polynomial.canonical_ofCoefficients p.terms (by simp [Polynomial.IntTerms, p]) 2 p rfl
  have right : (Argument.polynomial q).Denotes q := .polynomial <|
    @Polynomial.canonical_ofCoefficients q.terms (by simp [Polynomial.IntTerms, q]) (-2) q rfl
  obtain ⟨⟨r, added, represents⟩, -, -, refused, -, -, -, -, equal, -⟩ :=
    canonical_arithmetic left right (.inl rfl)
  refine ⟨left, right, ⟨r, added, ?_⟩, refused.mpr ⟨rfl, rfl⟩, Bool.eq_false_iff.mpr fun same => ?_⟩
  · refine represents.canonical.represents fun a => (represents.valueAt a).trans ?_
    simp only [Polynomial.valueAt, Polynomial.sumAt_cons, Polynomial.sumAt_nil, p, q,
      Number.toRat_int]
    push_cast
    ring
  · have values : (2 : ℚ) = -2 := by
      simpa [Polynomial.valueAt, p, q, Assignment.uniform] using equal.mp same (.uniform 0)
    exact absurd values (by norm_num)

end Argument

end LinearProgram
