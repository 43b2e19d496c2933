import LinearProgram.Proofs.Assignment

/-!
# Intervals of polynomials

The interval of `Model.boundsOf` holds every value that the polynomial takes within the bounds of
the variables (`Model.Within`), if these are integers or missing (`Polynomial.ExactOver`). Over
other bounds it is rounded; a polynomial that passes as boolean is 0 or 1 wherever the interval does
hold its value (`isBoolean_of_encloses`).
-/

namespace LinearProgram

open List

variable {n : Int} {q : ℚ} {x : Number} {approximate : Float → Float → Float}
  {terms : List (VarKey × Number)} {exact : Int → Int → Int}

namespace Number

/-- What a bound in effect can be: an integer, or the infinity on its side. -/
def IsBound (low : Bool) (x : Number) : Prop :=
  (∃ n : Int, x = .int n) ∨ x = .float (Double.infinity low)

/-- Whether a bound on the given side holds for a value. -/
def Bounds (low : Bool) (x : Number) (q : ℚ) : Prop := cond low (x.AtMost q) (x.AtLeast q)

theorem bounds_infinity (low : Bool) (q : ℚ) : (float (Double.infinity low)).Bounds low q := by
  cases low with
  | true => exact atMost_negInfinity q
  | false => exact atLeast_infinity q

theorem isFinite_infinity (low : Bool) : (float (Double.infinity low)).isFinite = false := by
  cases low <;> decide

/-- An end of an interval sum: an integer that bounds all values on its side, or beyond every number
on that side. -/
def End (valid : Assignment → Prop) (low : Bool) (x : Number) (f : Assignment → ℚ) : Prop :=
  (∃ n : Int, x = .int n ∧ ∀ a, valid a → (int n).Bounds low (f a))
    ∨ ∃ y, x = .float y ∧ Double.Beyond low y

variable {valid : Assignment → Prop} {low : Bool} {x y z : Number} {f g : Assignment → ℚ}

theorem bounds_int_add {m : Int} {r : ℚ} (left : (int m).Bounds low q)
    (right : (int n).Bounds low r) : (int (m + n)).Bounds low (q + r) := by
  cases low with
  | true =>
    simp only [Bounds, cond_true, atMost_int, Int.cast_add] at *
    linarith
  | false =>
    simp only [Bounds, cond_false, atLeast_int, Int.cast_add] at *
    linarith

theorem add_float_left {u : Float} (added : (float u).add y = some z) :
    ∃ w, z = float (u + w) := by
  cases y <;> simp only [add, combine, toInt?] at added <;>
    obtain ⟨_, known, rest⟩ := Option.bind_eq_some_iff.mp added <;>
    obtain ⟨w, -, rest⟩ := Option.bind_eq_some_iff.mp rest <;>
    cases known <;> cases rest <;> exact ⟨w, rfl⟩

theorem combine_float {u v : Float} (found : combine exact approximate (int n) (float v) = some z)
    (converted : Double.ofInt? n = some u) : z = float (approximate u v) := by
  simp only [combine, toInt?, toFloat?, converted] at found
  cases found
  rfl

theorem combine_converted {v : Float}
    (found : combine exact approximate (int n) (float v) = some z) :
    ∃ u, Double.ofInt? n = some u := by
  simp only [combine, toInt?, toFloat?] at found
  obtain ⟨u, converted, -⟩ := Option.bind_eq_some_iff.mp found
  exact ⟨u, converted⟩

theorem End.add (left : End valid low x f) (right : End valid low y g)
    (added : x.add y = some z) : End valid low z fun a => f a + g a := by
  rcases left with ⟨m, rfl, boundsLeft⟩ | ⟨u, rfl, beyondLeft⟩
  · rcases right with ⟨n, rfl, boundsRight⟩ | ⟨v, rfl, beyondRight⟩
    · cases added
      exact .inl ⟨m + n, rfl, fun a ok => bounds_int_add (boundsLeft a ok) (boundsRight a ok)⟩
    · obtain ⟨u, converted⟩ := combine_converted added
      exact .inr ⟨_, combine_float added converted, beyondRight.add_left u⟩
  · obtain ⟨w, rfl⟩ := add_float_left added
    exact .inr ⟨_, rfl, beyondLeft.add_right w⟩

theorem bounds_int_mul {c : Int} (nonzero : c ≠ 0) (bounds : (int n).Bounds low q) :
    (int (c * n)).Bounds (decide (c < 0) ^^ low) (c * q) := by
  rcases Int.lt_or_gt_of_ne nonzero with negative | positive
  · have sign : (c : ℚ) < 0 := by exact_mod_cast negative
    cases low with
    | true =>
      simp only [Bounds, cond_true, atMost_int] at bounds
      simp only [Bounds, negative, decide_true, Bool.xor_true, Bool.not_true, cond_false,
        atLeast_int, Int.cast_mul]
      exact mul_le_mul_of_nonpos_left bounds sign.le
    | false =>
      simp only [Bounds, cond_false, atLeast_int] at bounds
      simp only [Bounds, negative, decide_true, Bool.xor_false, cond_true, atMost_int,
        Int.cast_mul]
      exact mul_le_mul_of_nonpos_left bounds sign.le
  · have sign : (0 : ℚ) < c := by exact_mod_cast positive
    have unsigned : ¬ c < 0 := by omega
    cases low with
    | true =>
      simp only [Bounds, cond_true, atMost_int] at bounds
      simp only [Bounds, unsigned, decide_false, Bool.xor_true, Bool.not_false, cond_true,
        atMost_int, Int.cast_mul]
      exact mul_le_mul_of_nonneg_left bounds sign.le
    | false =>
      simp only [Bounds, cond_false, atLeast_int] at bounds
      simp only [Bounds, unsigned, decide_false, Bool.xor_false, cond_false, atLeast_int,
        Int.cast_mul]
      exact mul_le_mul_of_nonneg_left bounds sign.le

/-- A multiple of a bounded value; a negative factor turns the sides around. -/
theorem End.mul {c : Int} (nonzero : c ≠ 0) (shape : x.IsBound low)
    (bounds : ∀ a, valid a → x.Bounds low (f a)) (times : (int c).mul x = some z) :
    End valid (decide (c < 0) ^^ low) z fun a => c * f a := by
  rcases shape with ⟨n, rfl⟩ | rfl
  · cases times
    exact .inl ⟨c * n, rfl, fun a ok => bounds_int_mul nonzero (bounds a ok)⟩
  · obtain ⟨u, converted⟩ := combine_converted times
    exact .inr ⟨_, combine_float times converted, Double.mul_infinity converted low⟩

/-- A number with an exact value compares with integers as that value does. -/
theorem less_int_iff {r : ℚ} (value : x.rational? = some r) (n : Int) :
    (x.less (int n) = true ↔ r < n) ∧ (less (int n) x = true ↔ (n : ℚ) < r) := by
  cases x with
  | bool b =>
    have same : (bool b).less (int n) = (int b.toInt).less (int n)
        ∧ less (int n) (bool b) = less (int n) (int b.toInt) := by
      cases b <;> exact ⟨rfl, rfl⟩
    have exactly : r = b.toInt := by
      cases value
      cases b <;> simp
    rw [same.1, same.2, less_int, less_int, exactly, decide_eq_true_iff, decide_eq_true_iff,
      Int.cast_lt, Int.cast_lt]
    exact ⟨Iff.rfl, Iff.rfl⟩
  | int =>
    cases value
    rw [less_int, less_int, decide_eq_true_iff, decide_eq_true_iff, Int.cast_lt, Int.cast_lt]
    exact ⟨Iff.rfl, Iff.rfl⟩
  | float =>
    obtain ⟨⟨num, den⟩, ratio, rfl⟩ := Option.map_eq_some_iff.mp value
    obtain ⟨compared, positive⟩ := Double.compareInt_of_ratio ratio n
    have positive : (0 : ℚ) < den := by exact_mod_cast positive
    have below : (num : ℚ) < n * den ↔ compare (n * (den : Int)) num = .gt := by
      rw [Std.compare_eq_gt]
      norm_cast
    have above : (n : ℚ) * den < num ↔ compare (n * (den : Int)) num = .lt := by
      rw [Std.compare_eq_lt]
      norm_cast
    rw [div_lt_iff₀ positive, lt_div_iff₀ positive, below, above]
    simp only [less, compare?, toInt?, Option.getD_some, compared]
    cases compare (n * (den : Int)) num <;> decide

/-- A number that equals an infinity is on the same side of all integers. -/
theorem less_int_of_infinity {negative : Bool}
    (equal : x.equal (float (Double.infinity negative)) = true) (n : Int) :
    x.less (int n) = negative ∧ less (int n) x = !negative := by
  have decoded : Double.ofFloat (Double.infinity negative) = .infinite negative := by
    cases negative <;> decide
  cases x with
  | bool b =>
    have same : (bool b).equal (float (Double.infinity negative))
        = (int b.toInt).equal (float (Double.infinity negative)) := by
      cases b <;> rfl
    rw [same, int_equal_infinity] at equal
    cases equal
  | int =>
    rw [int_equal_infinity] at equal
    cases equal
  | float y =>
    have same : (y == Double.infinity negative) = true := by
      simp only [Number.equal, compare?] at equal
      split at equal
      · cases equal
      · split at equal
        · assumption
        · split at equal <;> cases equal
    have compared : Double.compareInt n (Double.ofFloat y)
        = some (if negative then .gt else .lt) := by
      rw [Double.compareInt_congr same, decoded]
      rfl
    simp only [less, compare?, toInt?, Option.getD_some, compared]
    cases negative <;> decide

/-- What is no smaller than a number that is not below an integer is not below it either. -/
theorem AtMost.le_of_less (atMost : x.AtMost q) (notBelow : x.less (int n) = false) :
    (n : ℚ) ≤ q := by
  rcases atMost with infinite | ⟨r, value, below⟩
  · rw [(less_int_of_infinity infinite n).1] at notBelow
    cases notBelow
  · rw [← Bool.not_eq_true, (less_int_iff value n).1, not_lt] at notBelow
    exact notBelow.trans below

/-- What is no larger than a number that is not above an integer is not above it either. -/
theorem AtLeast.le_of_less (atLeast : x.AtLeast q) (notAbove : less (int n) x = false) : q ≤ n := by
  rcases atLeast with infinite | ⟨r, value, above⟩
  · rw [(less_int_of_infinity infinite n).2] at notAbove
    cases notAbove
  · rw [← Bool.not_eq_true, (less_int_iff value n).2, not_lt] at notAbove
    exact above.trans notAbove

end Number

/-- A variable whose bounds in effect are integers or missing. -/
structure Variable.ExactBounds (v : Variable) : Prop where
  lower : v.bounds.1.IsBound true
  upper : v.bounds.2.IsBound false

theorem Variable.bounds_binary {v : Variable} (kind : v.kind = .binary) :
    v.bounds = (.int 0, .int 1) := by
  simp only [bounds, kind]

theorem Variable.exactBounds_of_binary (v : Variable) (kind : v.kind = .binary) : v.ExactBounds :=
  ⟨by rw [bounds_binary kind]; exact .inl ⟨0, rfl⟩, by rw [bounds_binary kind]; exact .inl ⟨1, rfl⟩⟩

theorem Variable.allows_binary (v : Variable) (kind : v.kind = .binary) (q : ℚ) :
    v.Allows q ↔ q = 0 ∨ q = 1 := by
  constructor
  · rintro ⟨lower, upper, integral⟩
    rw [bounds_binary kind, Number.atMost_int] at lower
    rw [bounds_binary kind, Number.atLeast_int] at upper
    rw [kind] at integral
    obtain ⟨n, rfl⟩ := integral
    have low : 0 ≤ n := by exact_mod_cast lower
    have high : n ≤ 1 := by exact_mod_cast upper
    have split : n = 0 ∨ n = 1 := by omega
    rcases split with rfl | rfl
    · exact .inl rfl
    · exact .inr rfl
  · intro value
    refine ⟨?_, ?_, ?_⟩
    · rw [bounds_binary kind, Number.atMost_int]
      rcases value with rfl | rfl <;> simp
    · rw [bounds_binary kind, Number.atLeast_int]
      rcases value with rfl | rfl <;> simp
    · rw [kind]
      rcases value with rfl | rfl
      · exact ⟨0, rfl⟩
      · exact ⟨1, rfl⟩

def Model.ExactBounds (m : Model) : Prop := ∀ v ∈ m.columns, v.ExactBounds

/-- A polynomial over variables whose bounds are integers or missing. -/
def Polynomial.ExactOver (m : Model) (p : Polynomial) : Prop :=
  ∀ term ∈ p.terms, ∀ v, m.declared? term.1 = some v → v.ExactBounds

/-- Whether an assignment respects the bounds of all variables, whatever their kinds. -/
def Model.Within (m : Model) (a : Assignment) : Prop :=
  ∀ v ∈ m.columns, v.bounds.1.AtMost (a.value v.key) ∧ v.bounds.2.AtLeast (a.value v.key)

namespace Model

variable {m : Model} {p : Polynomial}

theorem ExactBounds.over (exact : m.ExactBounds) (p : Polynomial) : p.ExactOver m :=
  fun _ _ v found => exact v (declared?_some found).1

theorem Admits.within {a : Assignment} (admits : m.Admits a) : m.Within a :=
  fun v mem => ⟨(admits v mem).lower, (admits v mem).upper⟩

theorem Within.congr {a a' : Assignment} (within : m.Within a)
    (columns : ∀ v ∈ m.columns, a'.value v.key = a.value v.key) : m.Within a' := by
  intro v mem
  rw [columns v mem]
  exact within v mem

theorem variableBounds_ok {key : VarKey}
    (exact : ∀ v, m.declared? key = some v → v.ExactBounds) :
    ((m.variableBounds key).1.IsBound true ∧ (m.variableBounds key).2.IsBound false)
      ∧ ∀ a : Assignment, m.Within a →
        (m.variableBounds key).1.Bounds true (a.value key)
          ∧ (m.variableBounds key).2.Bounds false (a.value key) := by
  unfold variableBounds
  split
  case h_1 v found =>
    obtain ⟨mem, same⟩ := declared?_some found
    refine ⟨⟨(exact v found).lower, (exact v found).upper⟩, ?_⟩
    intro a within
    rw [← a.respects same]
    exact within v mem
  case h_2 =>
    refine ⟨⟨.inr rfl, .inr rfl⟩, ?_⟩
    intro a _
    exact ⟨Number.bounds_infinity true _, Number.bounds_infinity false _⟩

/-- One step of an interval sum, whatever is said of the ends: the multiples of the term's ends are
added on their sides, and a negative coefficient turns the two around. -/
theorem extendBounds_ends (Part Multiple Sum Total : Bool → Number → Prop) {c : Int}
    (nonzero : c ≠ 0)
    (mul : ∀ {low x z}, Part low x → (Number.int c).mul x = some z →
      Multiple (decide (c < 0) ^^ low) z)
    (add : ∀ {low x y z}, Sum low x → Multiple low y → x.add y = some z → Total low z)
    {bounds range bounds' : Number × Number} (lower : Sum true bounds.1)
    (upper : Sum false bounds.2) (part : Part true range.1 ∧ Part false range.2)
    (extended : Polynomial.extendBounds bounds (.int c) range = .ok bounds') :
    Total true bounds'.1 ∧ Total false bounds'.2 := by
  unfold Polynomial.extendBounds at extended
  obtain ⟨t, times, extended⟩ := bind_eq_ok.mp extended
  obtain ⟨l, added, extended⟩ := bind_eq_ok.mp extended
  obtain ⟨t', times', extended⟩ := bind_eq_ok.mp extended
  obtain ⟨u, added', extended⟩ := bind_eq_ok.mp extended
  cases extended
  rw [orOverflow_eq_ok] at times added times' added'
  rw [Number.less_int] at times times'
  rcases Int.lt_or_gt_of_ne nonzero with negative | positive
  · rw [decide_eq_false (by omega)] at times times'
    have low := mul part.2 times
    have high := mul part.1 times'
    rw [decide_eq_true negative] at low high
    exact ⟨add lower low added, add upper high added'⟩
  · rw [decide_eq_true positive] at times times'
    have low := mul part.1 times
    have high := mul part.2 times'
    rw [decide_eq_false (by omega)] at low high
    exact ⟨add lower low added, add upper high added'⟩

theorem extendBounds_ok {key : VarKey} (exact : ∀ v, m.declared? key = some v → v.ExactBounds)
    {bounds bounds' : Number × Number} {c : Int} (nonzero : c ≠ 0) {f : Assignment → ℚ}
    (lower : Number.End m.Within true bounds.1 f) (upper : Number.End m.Within false bounds.2 f)
    (extended : Polynomial.extendBounds bounds (.int c) (m.variableBounds key) = .ok bounds') :
    Number.End m.Within true bounds'.1 (fun a => f a + c * a.value key)
      ∧ Number.End m.Within false bounds'.2 (fun a => f a + c * a.value key) := by
  obtain ⟨⟨shapeLow, shapeHigh⟩, within⟩ := variableBounds_ok exact
  exact extendBounds_ends
    (fun low x => x.IsBound low ∧ ∀ a, m.Within a → x.Bounds low (a.value key))
    (fun low x => Number.End m.Within low x fun a => c * a.value key)
    (fun low x => Number.End m.Within low x f) (fun low x => Number.End m.Within low x _) nonzero
    (fun part => Number.End.mul nonzero part.1 part.2) Number.End.add lower upper
    ⟨⟨shapeLow, fun a ok => (within a ok).1⟩, ⟨shapeHigh, fun a ok => (within a ok).2⟩⟩ extended

theorem foldBounds_ok (exact : ∀ term ∈ terms, ∀ v, m.declared? term.1 = some v → v.ExactBounds)
    (coefficients : ∀ term ∈ terms, ∃ c : Int, c ≠ 0 ∧ term.2 = .int c)
    {bounds bounds' : Number × Number} {f : Assignment → ℚ}
    (lower : Number.End m.Within true bounds.1 f) (upper : Number.End m.Within false bounds.2 f)
    (folded : terms.foldlM (fun bounds term =>
      Polynomial.extendBounds bounds term.2 (m.variableBounds term.1)) bounds = .ok bounds') :
    Number.End m.Within true bounds'.1 (fun a => f a + Polynomial.sumAt a terms)
      ∧ Number.End m.Within false bounds'.2 (fun a => f a + Polynomial.sumAt a terms) := by
  induction terms generalizing bounds f with
  | nil =>
    cases folded
    simpa using ⟨lower, upper⟩
  | cons first rest ih =>
    rw [foldlM_cons] at folded
    obtain ⟨middle, once, folded⟩ := bind_eq_ok.mp folded
    obtain ⟨c, nonzero, coefficient⟩ := coefficients first mem_cons_self
    rw [coefficient] at once
    rw [forall_mem_cons] at exact
    obtain ⟨lower', upper'⟩ := extendBounds_ok exact.1 nonzero lower upper once
    have rest := ih exact.2 (fun t mem => coefficients t (mem_cons_of_mem _ mem))
      lower' upper' folded
    simpa [coefficient, add_assoc] using rest

/-- An end that is no NaN is a bound of all values. -/
theorem bound_of_end {low : Bool} {f : Assignment → ℚ} {y : Float}
    (isEnd : Number.End m.Within low x f) (converted : x.toFloat? = some y)
    (number : y.isNaN = false) : x.IsBound low ∧ ∀ a, m.Within a → x.Bounds low (f a) := by
  rcases isEnd with ⟨n, rfl, bounds⟩ | ⟨z, rfl, rfl | rfl⟩
  · exact ⟨.inl ⟨n, rfl⟩, bounds⟩
  · exact ⟨.inr rfl, fun a _ => Number.bounds_infinity low _⟩
  · cases converted
    exact absurd number (by decide)

/-- The interval of a polynomial holds all its values. -/
theorem boundsOf_within (exact : p.ExactOver m) (formed : p.Formed m) {bounds : Number × Number}
    (found : m.boundsOf p = .ok bounds) :
    (bounds.1.IsBound true ∧ bounds.2.IsBound false)
      ∧ ∀ a : Assignment, m.Within a →
        bounds.1.Bounds true (p.valueAt a) ∧ bounds.2.Bounds false (p.valueAt a) := by
  obtain ⟨n, constant⟩ := formed.constant
  obtain ⟨⟨lower, upper⟩, folded, found⟩ := bind_eq_ok.mp found
  have start : ∀ low, Number.End m.Within low p.constant fun _ => n := fun low =>
    .inl ⟨n, constant, fun _ _ => by cases low <;> simp [Number.Bounds]⟩
  obtain ⟨lowEnd, highEnd⟩ :=
    foldBounds_ok exact formed.coefficients (start true) (start false) folded
  have value : (fun a => (n : ℚ) + Polynomial.sumAt a p.terms) = p.valueAt := by
    funext a
    rw [Polynomial.valueAt, constant, Number.toRat_int]
  rw [value] at lowEnd highEnd
  -- an end that is NaN, as from opposite infinities, makes the whole line the answer
  have whole : ((Number.negInfinity.IsBound true ∧ Number.infinity.IsBound false)
      ∧ ∀ a : Assignment, m.Within a → Number.negInfinity.Bounds true (p.valueAt a)
        ∧ Number.infinity.Bounds false (p.valueAt a)) :=
    ⟨⟨.inr rfl, .inr rfl⟩,
      fun a _ => ⟨Number.bounds_infinity true _, Number.bounds_infinity false _⟩⟩
  obtain ⟨l, convertedLow, found⟩ := bind_eq_ok.mp found
  split at found
  case isTrue => cases found; exact whole
  case isFalse numberLow =>
    obtain ⟨u, convertedHigh, found⟩ := bind_eq_ok.mp found
    split at found
    case isTrue => cases found; exact whole
    case isFalse numberHigh =>
      cases found
      have low := bound_of_end lowEnd (orOverflow_eq_ok.mp convertedLow)
        (by simpa using numberLow)
      have high := bound_of_end highEnd (orOverflow_eq_ok.mp convertedHigh)
        (by simpa using numberHigh)
      exact ⟨⟨low.1, high.1⟩, fun a ok => ⟨low.2 a ok, high.2 a ok⟩⟩

/-- Finite ends are integers that hold all values between them. -/
theorem finiteBoundsOf_within (exact : p.ExactOver m) (formed : p.Formed m) {operation : String}
    {bounds : Number × Number} (found : m.finiteBoundsOf p operation = .ok bounds) :
    ∃ l u : Int, bounds = (.int l, .int u)
      ∧ ∀ a : Assignment, m.Within a → (l : ℚ) ≤ p.valueAt a ∧ p.valueAt a ≤ u := by
  obtain ⟨⟨lower, upper⟩, interval, found⟩ := bind_eq_ok.mp found
  obtain ⟨⟨shapeLow, shapeHigh⟩, within⟩ := boundsOf_within exact formed interval
  dsimp only at found
  split at found
  case isTrue finite =>
    cases found
    rcases shapeLow with ⟨l, rfl⟩ | rfl
    · rcases shapeHigh with ⟨u, rfl⟩ | rfl
      · exact ⟨l, u, rfl, fun a ok => by simpa [Number.Bounds] using within a ok⟩
      · simp [Number.isFinite_infinity] at finite
    · simp [Number.isFinite_infinity] at finite
  case isFalse => exact absurd found (raise_ne_ok _ _)

/-- Whole multiples of integer variables add up to an integer. -/
theorem areWholeTerms_ok (exact : Polynomial.IntTerms terms)
    (whole : m.areWholeTerms terms = .ok true) {a : Assignment} (admits : m.Admits a) :
    ∃ n : Int, Polynomial.sumAt a terms = n := by
  induction terms with
  | nil => exact ⟨0, by simp⟩
  | cons first rest ih =>
    obtain ⟨c, coefficient⟩ := exact first mem_cons_self
    unfold areWholeTerms at whole
    split at whole
    case h_1 => simp at whole
    case h_2 v found =>
      obtain ⟨mem, same⟩ := declared?_some found
      split at whole
      case isTrue => simp at whole
      case isFalse discrete =>
        have integral : ∃ n : Int, a.value first.1 = n := by
          rw [← a.respects same]
          have kind := (admits v mem).kind
          revert discrete kind
          cases v.kind <;> simp [VariableKind.Admits]
        obtain ⟨verdict, -, whole⟩ := bind_eq_ok.mp whole
        cases verdict with
        | false => cases whole
        | true =>
          obtain ⟨n, rest⟩ :=
            ih (fun t mem => exact t (mem_cons_of_mem _ mem)) whole
          obtain ⟨k, value⟩ := integral
          refine ⟨c * k + n, ?_⟩
          rw [Polynomial.sumAt_cons, coefficient, rest, value, Number.toRat_int]
          push_cast
          ring

/-- What the check for a boolean polynomial has seen. -/
theorem isBoolean_cases (boolean : m.isBoolean p = .ok true) :
    ∃ bounds, m.boundsOf p = .ok bounds ∧ bounds.1.less (.int 0) = false
      ∧ Number.less (.int 1) bounds.2 = false ∧ m.areWholeTerms p.terms = .ok true := by
  obtain ⟨bounds, interval, boolean⟩ := bind_eq_ok.mp boolean
  dsimp only at boolean
  split at boolean
  case isTrue => cases boolean
  case isFalse inside =>
    simp only [Bool.or_eq_true, not_or, Bool.not_eq_true] at inside
    obtain ⟨verdict, -, boolean⟩ := bind_eq_ok.mp boolean
    cases verdict with
    | false => cases boolean
    | true => exact ⟨bounds, interval, inside.1, inside.2, boolean⟩

/-- A polynomial that passes as boolean is an integer at every assignment the model admits, whatever
the bounds of its variables. -/
theorem isBoolean_whole (formed : p.Formed m) (boolean : m.isBoolean p = .ok true) {a : Assignment}
    (admits : m.Admits a) : ∃ n : Int, p.valueAt a = n := by
  obtain ⟨-, -, -, -, whole⟩ := isBoolean_cases boolean
  obtain ⟨n, terms⟩ := areWholeTerms_ok formed.intTerms whole admits
  obtain ⟨b, constant⟩ := formed.constant
  exact ⟨b + n, by rw [Polynomial.valueAt, constant, terms, Number.toRat_int, Int.cast_add]⟩

/-- Whether the interval of a polynomial holds its value. -/
def Encloses (m : Model) (p : Polynomial) (a : Assignment) : Prop :=
  ∀ bounds, m.boundsOf p = .ok bounds →
    bounds.1.AtMost (p.valueAt a) ∧ bounds.2.AtLeast (p.valueAt a)

theorem encloses_of_exact (exact : p.ExactOver m) (formed : p.Formed m) {a : Assignment}
    (within : m.Within a) : m.Encloses p a :=
  fun _ interval => (boundsOf_within exact formed interval).2 a within

/-- A polynomial that passes as boolean is 0 or 1 wherever its interval holds its value. -/
theorem isBoolean_of_encloses (formed : p.Formed m) (boolean : m.isBoolean p = .ok true)
    {a : Assignment} (admits : m.Admits a) (encloses : m.Encloses p a) :
    p.valueAt a = 0 ∨ p.valueAt a = 1 := by
  obtain ⟨bounds, interval, notBelow, notAbove, -⟩ := isBoolean_cases boolean
  obtain ⟨n, value⟩ := isBoolean_whole formed boolean admits
  obtain ⟨atMost, atLeast⟩ := encloses bounds interval
  have below := atMost.le_of_less notBelow
  have above := atLeast.le_of_less notAbove
  rw [value, Int.cast_le] at below above
  rw [value]
  -- an integer between 0 and 1
  have split : n = 0 ∨ n = 1 := by omega
  rcases split with zero | one
  · exact .inl (by rw [zero]; rfl)
  · exact .inr (by rw [one]; rfl)

theorem isBoolean_ok (exact : p.ExactOver m) (formed : p.Formed m)
    (boolean : m.isBoolean p = .ok true) {a : Assignment} (admits : m.Admits a) :
    p.valueAt a = 0 ∨ p.valueAt a = 1 :=
  isBoolean_of_encloses formed boolean admits (encloses_of_exact exact formed admits.within)

end Model

end LinearProgram
