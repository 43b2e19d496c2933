import LinearProgram.Proofs.KeyEquality
import LinearProgram.Proofs.Registry

/-!
# The exact range of a polynomial

The interval of a polynomial is no wider than its values: a finite end is itself a value, and on the
side of an infinite one the values have no bound (`Number.IsEnd`). Exact ends add up because the
variables of a polynomial are independent (`Polynomial.attained_cons`).
-/

open scoped Pointwise

namespace LinearProgram

open List

variable {c : Int} {terms rest : List (VarKey × Number)} {range : Number × Number} {key : VarKey}
  {x : Number} {term : VarKey × Number}

namespace Number

/-! ## Exact ends -/

/-- Whether a value lies strictly on the given side of another. -/
def Past (low : Bool) (r q : ℚ) : Prop := cond low (q < r) (r < q)

/-- The exact end of a set of values: its least or its greatest value, or the infinity on a side
where the set has no bound. -/
def IsEnd (low : Bool) (x : Number) (values : Set ℚ) : Prop :=
  (∃ n : Int, x = .int n ∧ (n : ℚ) ∈ values ∧ ∀ q ∈ values, (int n).Bounds low q)
    ∨ x = .float (Double.infinity low) ∧ ∀ r : ℚ, ∃ q ∈ values, Past low r q

variable {low : Bool} {x y z : Number} {values others : Set ℚ}

theorem past_add {r q t : ℚ} (past : Past low (r - t) q) : Past low r (q + t) := by
  cases low with
  | true =>
    show q + t < r
    have below : q < r - t := past
    linarith
  | false =>
    show r < q + t
    have above : r - t < q := past
    linarith

theorem IsEnd.nonempty (isEnd : IsEnd low x values) : values.Nonempty := by
  rcases isEnd with ⟨n, -, mem, -⟩ | ⟨-, unbounded⟩
  · exact ⟨n, mem⟩
  · obtain ⟨q, mem, -⟩ := unbounded 0
    exact ⟨q, mem⟩

theorem isEnd_int (low : Bool) (n : Int) : IsEnd low (int n) {(n : ℚ)} := by
  refine .inl ⟨n, rfl, rfl, ?_⟩
  intro q mem
  rw [Set.mem_singleton_iff.mp mem]
  cases low <;> simp [Bounds]

theorem unbounded_add (unbounded : ∀ r : ℚ, ∃ q ∈ values, Past low r q) (some : others.Nonempty)
    (r : ℚ) : ∃ q ∈ values + others, Past low r q := by
  obtain ⟨t, mem⟩ := some
  obtain ⟨q, inside, past⟩ := unbounded (r - t)
  exact ⟨q + t, Set.add_mem_add inside mem, past_add past⟩

theorem add_int_infinity {n : Int} (added : (int n).add (float (Double.infinity low)) = some z) :
    z = float (Double.infinity low) := by
  obtain ⟨u, converted⟩ := combine_converted added
  rw [combine_float added converted, (Double.ofInt_add_infinity converted _).1]

theorem add_infinity_int {n : Int} (added : (float (Double.infinity low)).add (int n) = some z) :
    z = float (Double.infinity low) := by
  simp only [add, combine, toInt?, toFloat?] at added
  obtain ⟨u, infinite, added⟩ := Option.bind_eq_some_iff.mp added
  obtain ⟨v, converted, added⟩ := Option.bind_eq_some_iff.mp added
  cases infinite
  cases added
  rw [(Double.ofInt_add_infinity converted _).2]

theorem IsEnd.add (left : IsEnd low x values) (right : IsEnd low y others)
    (added : x.add y = some z) : IsEnd low z (values + others) := by
  have nonemptyLeft := left.nonempty
  have nonemptyRight := right.nonempty
  rcases left with ⟨m, rfl, mem, bounds⟩ | ⟨rfl, unbounded⟩
  · rcases right with ⟨n, rfl, mem', bounds'⟩ | ⟨rfl, unbounded⟩
    · cases added
      refine .inl ⟨m + n, rfl, ?_, ?_⟩
      · rw [Int.cast_add]
        exact Set.add_mem_add mem mem'
      · intro q sum
        obtain ⟨r, inside, s, inside', rfl⟩ := Set.mem_add.mp sum
        exact bounds_int_add (bounds r inside) (bounds' s inside')
    · refine .inr ⟨add_int_infinity added, ?_⟩
      rw [add_comm]
      exact unbounded_add unbounded nonemptyLeft
  · refine .inr ⟨?_, unbounded_add unbounded nonemptyRight⟩
    rcases right with ⟨n, rfl, -, -⟩ | ⟨rfl, -⟩
    · exact add_infinity_int added
    · cases added
      exact congrArg float (Double.infinity_add_infinity low)

theorem past_mul (nonzero : c ≠ 0) {r q : ℚ} (past : Past low (r / c) q) :
    Past (decide (c < 0) ^^ low) r (c * q) := by
  rcases Int.lt_or_gt_of_ne nonzero with negative | positive
  · have sign : (c : ℚ) < 0 := by exact_mod_cast negative
    rw [decide_eq_true negative]
    cases low with
    | true =>
      show r < c * q
      have below : q < r / c := past
      rw [mul_comm]
      exact (lt_div_iff_of_neg sign).mp below
    | false =>
      show c * q < r
      have above : r / c < q := past
      rw [mul_comm]
      exact (div_lt_iff_of_neg sign).mp above
  · have sign : (0 : ℚ) < c := by exact_mod_cast positive
    rw [decide_eq_false (by omega)]
    cases low with
    | true =>
      show c * q < r
      have below : q < r / c := past
      rw [mul_comm]
      exact (lt_div_iff₀ sign).mp below
    | false =>
      show r < c * q
      have above : r / c < q := past
      rw [mul_comm]
      exact (div_lt_iff₀ sign).mp above

/-- A multiple of an exact end; a negative factor turns the sides around. -/
theorem IsEnd.smul (nonzero : c ≠ 0) (isEnd : IsEnd low x values)
    (times : (int c).mul x = some z) : IsEnd (decide (c < 0) ^^ low) z ((c : ℚ) • values) := by
  rcases isEnd with ⟨n, rfl, mem, bounds⟩ | ⟨rfl, unbounded⟩
  · cases times
    refine .inl ⟨c * n, rfl, ?_, ?_⟩
    · rw [Int.cast_mul]
      exact Set.smul_mem_smul_set mem
    · intro q multiple
      obtain ⟨r, inside, rfl⟩ := Set.mem_smul_set.mp multiple
      exact bounds_int_mul nonzero (bounds r inside)
  · obtain ⟨u, converted⟩ := combine_converted times
    refine .inr ⟨?_, ?_⟩
    · rw [combine_float times converted, Double.ofInt_mul_infinity converted nonzero]
    · intro r
      obtain ⟨q, inside, past⟩ := unbounded (r / c)
      exact ⟨c * q, Set.smul_mem_smul_set inside, past_mul nonzero past⟩

theorem IsEnd.bounds (isEnd : IsEnd low x values) {q : ℚ} (mem : q ∈ values) :
    x.Bounds low q := by
  rcases isEnd with ⟨n, rfl, -, bounds⟩ | ⟨rfl, -⟩
  · exact bounds q mem
  · exact bounds_infinity low q

theorem IsEnd.mem (isEnd : IsEnd low x values) {r : ℚ} (finite : x.rational? = some r) :
    r ∈ values := by
  rcases isEnd with ⟨n, rfl, mem, -⟩ | ⟨rfl, -⟩
  · cases finite
    exact mem
  · have none : (float (Double.infinity low)).rational? = none := by
      cases low <;> decide
    rw [none] at finite
    cases finite

theorem IsEnd.unbounded (isEnd : IsEnd low x values)
    (infinite : x.equal (float (Double.infinity low)) = true) (r : ℚ) :
    ∃ q ∈ values, Past low r q := by
  rcases isEnd with ⟨n, rfl, -, -⟩ | ⟨-, unbounded⟩
  · rw [int_equal_infinity] at infinite
    cases infinite
  · exact unbounded r

/-- An exact end is not NaN, also not as a double. -/
theorem IsEnd.isNaN (isEnd : IsEnd low x values) {w : Float} (converted : x.toFloat? = some w) :
    w.isNaN = false := by
  rcases isEnd with ⟨n, rfl, -, -⟩ | ⟨rfl, -⟩
  · rw [Float.isNaN_eq_decide_eq_nan, decide_eq_false_iff_not]
    rintro rfl
    have nan : Float.nan.toModel.unpack = .notANumber := rfl
    rcases Double.unpack_ofInt converted with ⟨-, s, zero⟩ | ⟨m, e, positive, finite⟩
    · rw [nan] at zero
      cases zero
    · rw [nan] at finite
      cases finite
  · cases converted
    cases low <;> decide

/-! ## Ranges of variables -/

/-- The values between two bounds. -/
def between (range : Number × Number) : Set ℚ := {q | range.1.AtMost q ∧ range.2.AtLeast q}

/-- Bounds of a variable that leave it a value: each an integer or an infinity, in order, and none
of them beyond every number. -/
structure IsRange (range : Number × Number) : Prop where
  lower : range.1.IsGiven
  upper : range.2.IsGiven
  ordered : range.1.lessEq range.2 = true
  lower_less : range.1.less infinity = true
  less_upper : negInfinity.less range.2 = true

theorem IsRange.isBound (isRange : IsRange range) :
    range.1.IsBound true ∧ range.2.IsBound false := by
  constructor
  · rcases isRange.lower with integer | above | below
    · exact .inl integer
    · have less := isRange.lower_less
      rw [above] at less
      exact absurd less (by decide)
    · exact .inr below
  · rcases isRange.upper with integer | above | below
    · exact .inl integer
    · exact .inr above
    · have less := isRange.less_upper
      rw [below] at less
      exact absurd less (by decide)

/-- A bound is the exact end of what lies between it and a bound on the other side. -/
theorem isEnd_bound (near : x.IsBound low) (far : y.IsBound !low)
    (ordered : ∀ m n : Int, x = int m → y = int n → (int n).Bounds (!low) m) :
    IsEnd low x {q | x.Bounds low q ∧ y.Bounds (!low) q} := by
  rcases near with ⟨m, rfl⟩ | rfl
  · refine .inl ⟨m, rfl, ⟨(isEnd_int low m).bounds rfl, ?_⟩, fun q mem => mem.1⟩
    rcases far with ⟨n, rfl⟩ | rfl
    · exact ordered m n rfl rfl
    · exact bounds_infinity _ _
  · refine .inr ⟨rfl, ?_⟩
    intro r
    rcases far with ⟨n, rfl⟩ | rfl
    · cases low with
      | true =>
        refine ⟨min n (r - 1), ⟨bounds_infinity _ _, ?_⟩, ?_⟩
        · exact atLeast_int.mpr (min_le_left _ _)
        · exact lt_of_le_of_lt (min_le_right _ _) (sub_one_lt r)
      | false =>
        refine ⟨max n (r + 1), ⟨bounds_infinity _ _, ?_⟩, ?_⟩
        · exact atMost_int.mpr (le_max_left _ _)
        · exact lt_of_lt_of_le (lt_add_one r) (le_max_right _ _)
    · cases low with
      | true => exact ⟨r - 1, ⟨bounds_infinity _ _, bounds_infinity _ _⟩, sub_one_lt r⟩
      | false => exact ⟨r + 1, ⟨bounds_infinity _ _, bounds_infinity _ _⟩, lt_add_one r⟩

theorem IsRange.isEnd (isRange : IsRange range) :
    IsEnd true range.1 (between range) ∧ IsEnd false range.2 (between range) := by
  obtain ⟨low, high⟩ := isRange.isBound
  have ordered : ∀ m n : Int, range.1 = int m → range.2 = int n → (m : ℚ) ≤ n := by
    intro m n left right
    have below := isRange.ordered
    rw [left, right, lessEq_int, decide_eq_true_eq] at below
    exact_mod_cast below
  constructor
  · exact isEnd_bound low high fun m n left right => atLeast_int.mpr (ordered m n left right)
  · have flipped := isEnd_bound high low fun m n left right =>
      atMost_int.mpr (ordered n m right left)
    have swapped : between range = {q | range.2.AtLeast q ∧ range.1.AtMost q} :=
      Set.ext fun q => and_comm
    rw [swapped]
    exact flipped

end Number

namespace Polynomial

/-! ## Values of terms -/

/-- Integer multiples of instances, every instance at most once. -/
structure Gathered (terms : List (VarKey × Number)) : Prop where
  integers : IntTerms terms
  keys : ∀ term ∈ terms, term.1.isKey = true
  distinct : terms.Pairwise fun term other => term.1.equal other.1 = false

/-- A polynomial as it is built from integers. -/
structure Canonical (p : Polynomial) : Prop extends Gathered p.terms where
  nonzero : ∀ term ∈ p.terms, term.2.isZero = false
  constant : ∃ n : Int, p.constant = .int n

theorem gathered_nil : Gathered [] := ⟨nofun, nofun, .nil⟩

theorem Gathered.tail (gathered : Gathered (term :: rest)) : Gathered rest :=
  ⟨(forall_mem_cons.mp gathered.integers).2, (forall_mem_cons.mp gathered.keys).2,
    (pairwise_cons.mp gathered.distinct).2⟩

theorem mem_setTerm (mem : term ∈ setTerm key x terms) :
    (term.2 = x ∨ ∃ old ∈ terms, old.2 = term.2)
      ∧ (term.1 = key ∨ ∃ old ∈ terms, old.1 = term.1) := by
  induction terms with
  | nil =>
    rw [mem_singleton.mp mem]
    exact ⟨.inl rfl, .inl rfl⟩
  | cons first _ ih =>
    rw [setTerm] at mem
    split at mem
    · rcases mem_cons.mp mem with rfl | later
      · exact ⟨.inl rfl, .inr ⟨first, mem_cons_self, rfl⟩⟩
      · have old := mem_cons_of_mem first later
        exact ⟨.inr ⟨term, old, rfl⟩, .inr ⟨term, old, rfl⟩⟩
    · rcases mem_cons.mp mem with rfl | later
      · exact ⟨.inr ⟨term, mem_cons_self, rfl⟩, .inr ⟨term, mem_cons_self, rfl⟩⟩
      · refine (ih later).imp (Or.imp_right ?_) (Or.imp_right ?_) <;>
          exact fun ⟨old, known, same⟩ => ⟨old, mem_cons_of_mem _ known, same⟩

/-- Setting a coefficient makes no second term for an instance. -/
theorem distinct_setTerm
    (distinct : terms.Pairwise fun term other => term.1.equal other.1 = false) :
    (setTerm key x terms).Pairwise fun term other => term.1.equal other.1 = false := by
  induction terms with
  | nil => exact pairwise_singleton _ _
  | cons _ _ ih =>
    rw [pairwise_cons] at distinct
    rw [setTerm]
    split
    · exact pairwise_cons.mpr distinct
    case isFalse other =>
      refine pairwise_cons.mpr ⟨?_, ih distinct.2⟩
      intro term mem
      rcases (mem_setTerm mem).2 with new | ⟨old, known, same⟩
      · rw [new]
        exact Bool.eq_false_iff.mpr other
      · rw [← same]
        exact distinct.1 old known

theorem Gathered.setTerm (gathered : Gathered terms) (legal : key.isKey = true)
    (exact : ∃ c : Int, x = .int c) : Gathered (setTerm key x terms) := by
  refine ⟨?_, ?_, distinct_setTerm gathered.distinct⟩
  · intro term mem
    rcases (mem_setTerm mem).1 with new | ⟨old, known, same⟩
    · rw [new]
      exact exact
    · rw [← same]
      exact gathered.integers old known
  · intro term mem
    rcases (mem_setTerm mem).2 with new | ⟨old, known, same⟩
    · rw [new]
      exact legal
    · rw [← same]
      exact gathered.keys old known

theorem Gathered.setTerms {new : List (VarKey × Number)} (gathered : Gathered terms)
    (exact : IntTerms new) (legal : ∀ term ∈ new, term.1.isKey = true) :
    Gathered (new.foldl (fun done term => Polynomial.setTerm term.1 term.2 done) terms) := by
  induction new generalizing terms with
  | nil => exact gathered
  | cons _ _ ih =>
    rw [IntTerms, forall_mem_cons] at exact
    rw [forall_mem_cons] at legal
    exact ih (gathered.setTerm legal.1 exact.1) exact.2 legal.2

/-- Dropping the terms with coefficient zero leaves a canonical polynomial. -/
theorem canonical_ofTerms (gathered : Gathered terms) (n : Int) :
    (ofTerms terms (.int n)).Canonical := by
  refine ⟨⟨?_, ?_, gathered.distinct.filter _⟩, ?_, n, rfl⟩
  · intro term mem
    exact gathered.integers term (mem_filter.mp mem).1
  · intro term mem
    exact gathered.keys term (mem_filter.mp mem).1
  · intro term mem
    simpa using (mem_filter.mp mem).2

theorem canonical_ofCoefficients (exact : IntTerms terms) {n : Int} {p : Polynomial}
    (built : ofCoefficients terms (.int n) = .ok p) : p.Canonical := by
  unfold ofCoefficients at built
  split at built
  case isFalse => cases built
  case isTrue legal =>
    cases built
    exact canonical_ofTerms (gathered_nil.setTerms exact (all_eq_true.mp legal)) n

/-- Whether an assignment keeps the instances of some terms within their bounds. -/
def Within (boundsOf : VarKey → Number × Number) (terms : List (VarKey × Number))
    (a : Assignment) : Prop :=
  ∀ term ∈ terms, a.value term.1 ∈ Number.between (boundsOf term.1)

/-- The values that some terms take within the bounds of their instances. -/
def attained (boundsOf : VarKey → Number × Number) (terms : List (VarKey × Number)) : Set ℚ :=
  {q | ∃ a, Within boundsOf terms a ∧ sumAt a terms = q}

variable {boundsOf : VarKey → Number × Number}

theorem attained_nil : attained boundsOf [] = 0 := by
  ext q
  constructor
  · rintro ⟨a, -, rfl⟩
    rfl
  · rintro rfl
    exact ⟨.uniform 0, nofun, rfl⟩

/-- Terms of different instances take their values independently. -/
theorem attained_cons (legal : key.isKey = true) (fresh : ∀ term ∈ rest, key.equal term.1 = false) :
    attained boundsOf ((key, .int c) :: rest)
      = (c : ℚ) • Number.between (boundsOf key) + attained boundsOf rest := by
  ext q
  constructor
  · rintro ⟨a, within, rfl⟩
    rw [Within, forall_mem_cons] at within
    rw [sumAt_cons]
    exact Set.add_mem_add (Set.smul_mem_smul_set within.1) ⟨a, within.2, rfl⟩
  · intro sum
    obtain ⟨_, multiple, _, ⟨a, within, rfl⟩, rfl⟩ := Set.mem_add.mp sum
    obtain ⟨r, inside, rfl⟩ := Set.mem_smul_set.mp multiple
    -- the assignment for the other terms, with the wanted value for this instance
    have kept : ∀ term ∈ rest, (a.set legal r).value term.1 = a.value term.1 := by
      intro term mem
      apply a.set_other legal r
      rw [← VarKey.equal_comm legal]
      exact fresh term mem
    refine ⟨a.set legal r, forall_mem_cons.mpr ⟨?_, ?_⟩, ?_⟩
    · rw [a.set_self legal r]
      exact inside
    · intro term mem
      rw [kept term mem]
      exact within term mem
    · rw [sumAt_cons, a.set_self legal r]
      show c * r + sumAt _ rest = c * r + sumAt a rest
      rw [sumAt, sumAt, map_congr_left fun term mem => by rw [kept term mem]]

/-! ## Intervals -/

/-- The two exact ends of a set of values. -/
def AreEnds (bounds : Number × Number) (values : Set ℚ) : Prop :=
  Number.IsEnd true bounds.1 values ∧ Number.IsEnd false bounds.2 values

theorem AreEnds.extend {bounds bounds' : Number × Number} {values : Set ℚ}
    (ends : AreEnds bounds values) (isRange : Number.IsRange range) {c : Int} (nonzero : c ≠ 0)
    (extended : extendBounds bounds (.int c) range = .ok bounds') :
    AreEnds bounds' (values + (c : ℚ) • Number.between range) :=
  Model.extendBounds_ends (Number.IsEnd · · (Number.between range)) (Number.IsEnd · · _)
    (Number.IsEnd · · values) (Number.IsEnd · · _) nonzero (Number.IsEnd.smul nonzero)
    Number.IsEnd.add ends.1 ends.2 isRange.isEnd extended

theorem AreEnds.extendAll (gathered : Gathered terms)
    (nonzero : ∀ term ∈ terms, term.2.isZero = false)
    (ranges : ∀ term ∈ terms, Number.IsRange (boundsOf term.1)) {bounds bounds' : Number × Number}
    {values : Set ℚ} (ends : AreEnds bounds values)
    (extended : terms.foldlM (fun bounds term => extendBounds bounds term.2 (boundsOf term.1))
      bounds = .ok bounds') : AreEnds bounds' (values + attained boundsOf terms) := by
  induction terms generalizing bounds values with
  | nil =>
    cases extended
    rw [attained_nil, add_zero]
    exact ends
  | cons term _ ih =>
    obtain ⟨key, coefficient⟩ := term
    rw [forall_mem_cons] at nonzero ranges
    obtain ⟨c, rfl⟩ := gathered.integers _ mem_cons_self
    have factor : c ≠ 0 := by simpa using nonzero.1
    have fresh := (pairwise_cons.mp gathered.distinct).1
    rw [foldlM_cons] at extended
    obtain ⟨next, step, later⟩ := bind_eq_ok.mp extended
    rw [attained_cons (gathered.keys _ mem_cons_self) fresh, ← add_assoc]
    exact ih gathered.tail nonzero.2 ranges.2 (ends.extend ranges.1 factor step) later

/-- The interval of a polynomial has exact ends: none of the sums on the way is NaN. -/
theorem areEnds_bounds {p : Polynomial} (canonical : p.Canonical)
    (ranges : ∀ term ∈ p.terms, Number.IsRange (boundsOf term.1)) {ends : Number × Number}
    (computed : p.bounds boundsOf = .ok ends) :
    AreEnds ends {q | ∃ a, Within boundsOf p.terms a ∧ p.valueAt a = q} := by
  obtain ⟨n, constant⟩ := canonical.constant
  have values : {q | ∃ a, Within boundsOf p.terms a ∧ p.valueAt a = q}
      = {(n : ℚ)} + attained boundsOf p.terms := by
    ext q
    constructor
    · rintro ⟨a, within, rfl⟩
      rw [valueAt, constant]
      exact Set.add_mem_add rfl ⟨a, within, rfl⟩
    · intro sum
      obtain ⟨_, rfl, _, ⟨a, within, rfl⟩, rfl⟩ := Set.mem_add.mp sum
      exact ⟨a, within, by rw [valueAt, constant]; rfl⟩
  obtain ⟨⟨lower, upper⟩, extended, computed⟩ := bind_eq_ok.mp computed
  rw [constant] at extended
  have exact := AreEnds.extendAll canonical.toGathered canonical.nonzero ranges
    ⟨Number.isEnd_int true n, Number.isEnd_int false n⟩ extended
  obtain ⟨l, convertedLower, computed⟩ := bind_eq_ok.mp computed
  rw [exact.1.isNaN (orOverflow_eq_ok.mp convertedLower)] at computed
  obtain ⟨u, convertedUpper, computed⟩ := bind_eq_ok.mp computed
  rw [exact.2.isNaN (orOverflow_eq_ok.mp convertedUpper)] at computed
  cases computed
  rw [values]
  exact exact

/-- **The interval of a polynomial is its exact range.** All values within the bounds of the
variables lie in it. A finite end is one of these values, and an end is infinite only if the values
have no bound on its side. -/
theorem bounds_exact_range {p : Polynomial} (canonical : p.Canonical)
    (ranges : ∀ term ∈ p.terms, Number.IsRange (boundsOf term.1)) {lower upper : Number}
    (computed : p.bounds boundsOf = .ok (lower, upper)) :
    (∀ a, Within boundsOf p.terms a → lower.AtMost (p.valueAt a) ∧ upper.AtLeast (p.valueAt a))
      ∧ (∀ r, lower.rational? = some r → ∃ a, Within boundsOf p.terms a ∧ p.valueAt a = r)
      ∧ (∀ r, upper.rational? = some r → ∃ a, Within boundsOf p.terms a ∧ p.valueAt a = r)
      ∧ (lower.equal .negInfinity = true →
          ∀ r, ∃ a, Within boundsOf p.terms a ∧ p.valueAt a < r)
      ∧ (upper.equal .infinity = true →
          ∀ r, ∃ a, Within boundsOf p.terms a ∧ r < p.valueAt a) := by
  obtain ⟨least, greatest⟩ := areEnds_bounds canonical ranges computed
  refine ⟨?_, ?_, ?_, ?_, ?_⟩
  · intro a within
    exact ⟨least.bounds ⟨a, within, rfl⟩, greatest.bounds ⟨a, within, rfl⟩⟩
  · intro r finite
    exact least.mem finite
  · intro r finite
    exact greatest.mem finite
  · intro infinite r
    obtain ⟨_, ⟨a, within, rfl⟩, below⟩ := least.unbounded infinite r
    exact ⟨a, within, below⟩
  · intro infinite r
    obtain ⟨_, ⟨a, within, rfl⟩, above⟩ := greatest.unbounded infinite r
    exact ⟨a, within, above⟩

/-- The values of `2 x - 3 y + 1` for `x` between 0 and 4 and `y` up to 5 begin at -14 and have no
upper bound. -/
theorem half_open_range :
    let x : VarKey := ⟨"x", []⟩
    let y : VarKey := ⟨"y", []⟩
    let p : Polynomial := ⟨[(x, .int 2), (y, .int (-3))], .int 1⟩
    let boundsOf (key : VarKey) : Number × Number :=
      if key.family = "x" then (.int 0, .int 4) else (.negInfinity, .int 5)
    p.bounds boundsOf = .ok (.int (-14), .infinity)
      ∧ (∀ a, Within boundsOf p.terms a → -14 ≤ p.valueAt a)
      ∧ (∃ a, Within boundsOf p.terms a ∧ p.valueAt a = -14)
      ∧ ∀ r, ∃ a, Within boundsOf p.terms a ∧ r < p.valueAt a := by
  intro x y p boundsOf
  have canonical : p.Canonical :=
    @canonical_ofCoefficients [(x, .int 2), (y, .int (-3))] (by simp [IntTerms]) 1 p rfl
  have ranges : ∀ term ∈ p.terms, Number.IsRange (boundsOf term.1) := by
    refine List.forall_mem_cons.mpr ⟨?_, List.forall_mem_singleton.mpr ?_⟩
    · exact ⟨.inl ⟨0, rfl⟩, .inl ⟨4, rfl⟩, by decide, by decide, by decide⟩
    · exact ⟨.inr (.inr rfl), .inl ⟨5, rfl⟩, by decide, by decide, by decide⟩
  have computed : p.bounds boundsOf = .ok (.int (-14), .infinity) := by rfl
  obtain ⟨encloses, least, -, -, unbounded⟩ := bounds_exact_range canonical ranges computed
  refine ⟨computed, ?_, ?_, unbounded (by decide)⟩
  · intro a within
    simpa using (encloses a within).1
  · obtain ⟨a, within, value⟩ := least (-14) (by simp [Number.rational?])
    exact ⟨a, within, value⟩

end Polynomial

end LinearProgram
