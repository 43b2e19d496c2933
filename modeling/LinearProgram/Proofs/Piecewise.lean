import LinearProgram.Proofs.Rows

/-!
# Piecewise linear functions

Each segment has a selector and a portion of the argument, which is zero where the selector is off.
What the rows amount to is said about rational numbers (`portions_iff`): exactly one segment is on,
and it gives the value.
-/

namespace LinearProgram

open List

variable {pairs : List (Polynomial × Polynomial)}

/-! ## Segments -/

/-- One piece of a piecewise linear function. -/
structure Segment where
  low : ℚ
  high : ℚ
  slope : ℚ
  intercept : ℚ

namespace Segment

/-- Whether a piece holds `x` and takes it to `v`. -/
structure Gives (g : Segment) (x v : ℚ) : Prop where
  low : g.low ≤ x
  high : x ≤ g.high
  value : v = g.slope * x + g.intercept

/-- The pieces between neighbouring breakpoints. -/
def ofData : List Value → List Value → List Value → List Segment
  | low :: high :: points, slope :: slopes, intercept :: offsets =>
    ⟨low.toRat, high.toRat, slope.toRat, intercept.toRat⟩
      :: ofData (high :: points) slopes offsets
  | _, _, _ => []

end Segment

namespace Linearization

open Assembly

variable {cfg : Config} {free : Prop} {s s' : Store}

/-! ## Portions -/

/-- A selector `q.1` and a portion `q.2` of a segment: the portion lies within the segment if the
selector is on, and is zero otherwise. -/
structure Portion (g : Segment) (q : ℚ × ℚ) : Prop where
  binary : q.1 = 0 ∨ q.1 = 1
  between : min g.low 0 ≤ q.2 ∧ q.2 ≤ max g.high 0
  lower : q.1 * g.low ≤ q.2
  upper : q.2 ≤ q.1 * g.high

/-- What a selector and a portion contribute to the value. -/
def contribution (g : Segment) (q : ℚ × ℚ) : ℚ := q.2 * g.slope + q.1 * g.intercept

def contributions : List Segment → List (ℚ × ℚ) → ℚ
  | g :: segments, q :: portions => contribution g q + contributions segments portions
  | _, _ => 0

section Portions

variable {g : Segment} {segments : List Segment} {portions : List (ℚ × ℚ)} {x v y w : ℚ}

theorem Portion.eq_zero (portion : Portion g (0, w)) : w = 0 := by
  have lower := portion.lower
  have upper := portion.upper
  linarith

theorem portion_zero (g : Segment) : Portion g (0, 0) :=
  ⟨.inl rfl, ⟨min_le_right _ _, le_max_right _ _⟩, by simp, by simp⟩

theorem portion_one (low : g.low ≤ x) (high : x ≤ g.high) : Portion g (1, x) :=
  ⟨.inr rfl, ⟨(min_le_left _ _).trans low, high.trans (le_max_left _ _)⟩, by simpa using low,
    by simpa using high⟩

section

variable (related : Forall₂ Portion segments portions)
include related

theorem selectors_nonneg :
    0 ≤ (portions.map (·.1)).sum := by
  induction related with
  | nil => simp
  | @cons g q _ _ here _ ih =>
    rw [map_cons, sum_cons]
    rcases here.binary with isZero | isOne <;> linarith

/-- Without a selector that is on, all portions are zero. -/
theorem portions_off (off : (portions.map (·.1)).sum = 0) :
    (portions.map (·.2)).sum = 0 ∧ contributions segments portions = 0 := by
  induction related with
  | nil => exact ⟨rfl, rfl⟩
  | @cons g q segments portions here rest ih =>
    obtain ⟨y, w⟩ := q
    simp only [map_cons, sum_cons] at off
    have others := selectors_nonneg rest
    rcases here.binary with isZero | isOne
    · dsimp only at isZero
      subst isZero
      obtain ⟨none, nothing⟩ := ih (by linarith)
      simp [here.eq_zero, none, nothing, contributions, contribution]
    · dsimp only at isOne
      linarith

/-- The one selector that is on names the segment. -/
theorem gives_of_portions (one : (portions.map (·.1)).sum = 1) :
    ∃ g ∈ segments, g.Gives (portions.map (·.2)).sum (contributions segments portions) := by
  induction related with
  | nil => simp at one
  | @cons g q segments portions here rest ih =>
    obtain ⟨y, w⟩ := q
    simp only [map_cons, sum_cons] at one
    rcases here.binary with isZero | isOne
    · dsimp only at isZero
      subst isZero
      obtain ⟨found, mem, gives⟩ := ih (by linarith)
      refine ⟨found, mem_cons_of_mem _ mem, ?_⟩
      simpa [here.eq_zero, contributions, contribution] using gives
    · dsimp only at isOne
      subst isOne
      obtain ⟨none, nothing⟩ := portions_off rest (by linarith)
      refine ⟨g, mem_cons_self, ?_, ?_, ?_⟩
      · simpa [none] using here.lower
      · simpa [none] using here.upper
      · simp only [contributions, contribution, map_cons, sum_cons, none, nothing]
        ring

end

theorem portions_zeros (segments : List Segment) :
    Forall₂ Portion segments (List.replicate segments.length (0, 0))
      ∧ contributions segments (List.replicate segments.length (0, 0)) = 0 := by
  induction segments with
  | nil => exact ⟨Forall₂.nil, rfl⟩
  | cons g _ ih =>
    refine ⟨Forall₂.cons (portion_zero g) ih.1, ?_⟩
    simp [replicate_succ, contributions, contribution, ih.2]

/-- Selectors and portions exist exactly where some segment gives the value. -/
theorem portions_iff :
    (∃ portions, Forall₂ Portion segments portions ∧ (portions.map (·.1)).sum = 1
      ∧ (portions.map (·.2)).sum = x ∧ v = contributions segments portions)
      ↔ ∃ g ∈ segments, g.Gives x v := by
  constructor
  · rintro ⟨portions, related, one, rfl, rfl⟩
    exact gives_of_portions related one
  · rintro ⟨g, mem, gives⟩
    induction segments with
    | nil => exact absurd mem not_mem_nil
    | cons first rest ih =>
      rcases mem_cons.mp mem with rfl | later
      · obtain ⟨zeros, nothing⟩ := portions_zeros rest
        refine ⟨(1, x) :: List.replicate rest.length (0, 0),
          Forall₂.cons (portion_one gives.low gives.high) zeros, by simp, by simp, ?_⟩
        rw [contributions, nothing, contribution, gives.value]
        ring
      · obtain ⟨portions, related, one, sum, value⟩ := ih later
        refine ⟨(0, 0) :: portions, Forall₂.cons (portion_zero first) related,
          by simpa using one, by simpa using sum, ?_⟩
        simpa [contributions, contribution] using value

end Portions

section Piecewise

variable {m : Model} {y w p e : Polynomial} {done done' : Segments} {family : String} {n k : Nat}

theorem ordered?_int (test : OrderTest) (x y : Int) :
    Value.ordered? test (.int x) (.int y) = some (test.holds (some (compare x y))) := by
  simp only [Value.int, Value.ordered?, Number.compare?, Number.toInt?, Option.getD_some]

theorem portionLower_int (l : Int) : portionLower (.int l) = .ok (.int (min l 0)) := by
  rw [portionLower, ordered?_int]
  rcases lt_trichotomy l 0 with negative | rfl | positive
  · rw [Std.compare_eq_lt.mpr negative, min_eq_left negative.le]
    rfl
  · rfl
  · rw [Std.compare_eq_gt.mpr positive, min_eq_right positive.le]
    rfl

theorem portionUpper_int (h : Int) : portionUpper (.int h) = .ok (.int (max h 0)) := by
  rw [portionUpper, ordered?_int]
  rcases lt_trichotomy h 0 with negative | rfl | positive
  · rw [Std.compare_eq_lt.mpr negative, max_eq_right negative.le]
    rfl
  · rfl
  · rw [Std.compare_eq_gt.mpr positive, max_eq_left positive.le]
    rfl

theorem scaledBy_ok {c : Int} {factor r : Polynomial} (formed : y.Formed m)
    (converted : Polynomial.ofValue (.int c) = .ok factor) (times : y.mul factor = .ok r) :
    r.Formed m ∧ ∀ a : Assignment, r.valueAt a = y.valueAt a * c := by
  cases converted
  obtain ⟨formedR, values⟩ := Polynomial.mul_ok formed (Polynomial.formed_const m c) times
  exact ⟨formedR, fun a => by rw [values a, Polynomial.valueAt_const, Number.toRat_int]⟩

theorem segmentRows_states {l h : Int} (formedY : y.Formed m) (formedW : w.Formed m) :
    StatesAll m (segmentRows k y w (.int l) (.int h)) fun a =>
      y.valueAt a * l ≤ w.valueAt a ∧ w.valueAt a ≤ y.valueAt a * h := by
  have row : ∀ (tag : String) (rel : Relation) (c : Int),
      States m (do
        let factor ← Polynomial.ofValue (.int c)
        let bound ← y.mul factor
        let lhs ← w.sub bound
        pure { tag, lhs, relation := rel }) fun a =>
          rel.Relates (w.valueAt a - y.valueAt a * c) 0 := by
    intro tag rel c r computed
    obtain ⟨factor, converted, computed⟩ := bind_eq_ok.mp computed
    obtain ⟨bound, times, computed⟩ := bind_eq_ok.mp computed
    obtain ⟨lhs, minus, computed⟩ := bind_eq_ok.mp computed
    cases computed
    obtain ⟨formedB, values⟩ := scaledBy_ok formedY converted times
    obtain ⟨formed, values'⟩ := Polynomial.sub_ok formedW formedB minus
    refine ⟨formed, ⟨0, rfl⟩, fun a => ?_⟩
    rw [Row.HoldsAt, values' a, values a, Number.toRat_int, Int.cast_zero]
  refine (StatesAll.cons (row _ .atLeast l) (StatesAll.single (row _ .atMost h))).congr fun a => ?_
  simp [Relation.Relates]

/-- What the steps from `m` to `m'` have added for the given segments: a selector and a portion
each, which can take exactly the values they should, and their contributions to the result. -/
structure Built (cfg : Config) (m m' : Model) (done done' : Segments) (segments : List Segment)
    (pairs : List (Polynomial × Polynomial)) : Prop where
  selectors : done'.selectors = done.selectors ++ pairs.map (·.1)
  portions : done'.portions = done.portions ++ pairs.map (·.2)
  formed : ∀ q ∈ pairs, q.1.Formed m' ∧ q.2.Formed m'
  result : done'.result.Formed m'
  value : ∀ a : Assignment, done'.result.valueAt a = done.result.valueAt a
    + contributions segments (pairs.map fun q => (q.1.valueAt a, q.2.valueAt a))
  added : Adds cfg m m' (fun a => pairs.map fun q => (q.1.valueAt a, q.2.valueAt a))
    (fun _ portions => Forall₂ Portion segments portions)

theorem orOutOfRange_ok {slot : Option Value} {value : Value}
    (ran : (liftM (orOutOfRange slot) : Assembly Value).run s = (.ok value, s')) :
    slot = some value := by
  obtain ⟨found, -⟩ := run_lift_ok.mp ran
  cases slot with
  | none => exact absurd found (breakDown_ne_ok _ _)
  | some =>
    cases found
    rfl

/-- A segment needs a slope and an intercept. -/
theorem addSegment_data {low high : Value} {slope intercept : Option Value}
    (ran : (addSegment cfg family n k low high slope intercept done).run s
      = (.ok done', s')) : slope.isSome = true ∧ intercept.isSome = true := by
  obtain ⟨y, _, -, ran⟩ := run_bind_ok.mp ran
  obtain ⟨lower, _, -, ran⟩ := run_bind_ok.mp ran
  obtain ⟨upper, _, -, ran⟩ := run_bind_ok.mp ran
  obtain ⟨_, _, -, ran⟩ := run_bind_ok.mp ran
  obtain ⟨_, _, -, ran⟩ := run_bind_ok.mp ran
  obtain ⟨w, _, -, ran⟩ := run_bind_ok.mp ran
  obtain ⟨_, _, -, ran⟩ := run_bind_ok.mp ran
  obtain ⟨_, _, found, ran⟩ := run_bind_ok.mp ran
  obtain ⟨_, _, -, ran⟩ := run_bind_ok.mp ran
  obtain ⟨_, _, -, ran⟩ := run_bind_ok.mp ran
  obtain ⟨_, _, -, ran⟩ := run_bind_ok.mp ran
  obtain ⟨_, _, found', -⟩ := run_bind_ok.mp ran
  rw [orOutOfRange_ok found, orOutOfRange_ok found']
  exact ⟨rfl, rfl⟩

/-- The steps of one segment, for integer data. -/
theorem addSegment_ok {low high slope intercept : Int}
    (ran : (addSegment cfg family n k (.int low) (.int high) (some (.int slope))
      (some (.int intercept)) done).run s = (.ok done', s')) :
    ∃ y w s₁ s₂ u sloped rising shifted result,
      (introduce cfg (family ++ "_sel") [n, k] .binary none none).run s = (.ok y, s₁)
      ∧ (introduce cfg (family ++ "_seg") [n, k] .continuous (some (.int (min low 0)))
          (some (.int (max high 0)))).run s₁ = (.ok w, s₂)
      ∧ (declareRows cfg family n (segmentRows k y w (.int low) (.int high))).run s₂
          = (.ok u, s')
      ∧ w.mul (Polynomial.const (.int slope)) = .ok sloped
      ∧ done.result.add sloped = .ok rising
      ∧ y.mul (Polynomial.const (.int intercept)) = .ok shifted
      ∧ rising.add shifted = .ok result
      ∧ done' = ⟨done.selectors ++ [y], done.portions ++ [w], result⟩ := by
  obtain ⟨y, s₁, introduced, ran⟩ := run_bind_ok.mp ran
  -- a portion is zero where its selector is off, so its bounds take zero in
  obtain ⟨lower, isLower, ran⟩ := run_lift_bind_ok.mp ran
  rw [portionLower_int] at isLower
  cases isLower
  obtain ⟨upper, isUpper, ran⟩ := run_lift_bind_ok.mp ran
  rw [portionUpper_int] at isUpper
  cases isUpper
  obtain ⟨_, _, lifted, ran⟩ := run_bind_ok.mp ran
  cases lifted
  obtain ⟨_, _, lifted, ran⟩ := run_bind_ok.mp ran
  cases lifted
  obtain ⟨w, s₂, introduced', ran⟩ := run_bind_ok.mp ran
  obtain ⟨u, s₃, declared, ran⟩ := run_bind_ok.mp ran
  -- slope times portion, then intercept times selector
  obtain ⟨_, _, lifted, ran⟩ := run_bind_ok.mp ran
  cases lifted
  obtain ⟨_, _, lifted, ran⟩ := run_bind_ok.mp ran
  cases lifted
  obtain ⟨sloped, times, ran⟩ := run_lift_bind_ok.mp ran
  obtain ⟨rising, added, ran⟩ := run_lift_bind_ok.mp ran
  obtain ⟨_, _, lifted, ran⟩ := run_bind_ok.mp ran
  cases lifted
  obtain ⟨_, _, lifted, ran⟩ := run_bind_ok.mp ran
  cases lifted
  obtain ⟨shifted, times', ran⟩ := run_lift_bind_ok.mp ran
  obtain ⟨result, added', ran⟩ := run_lift_bind_ok.mp ran
  obtain ⟨rfl, rfl⟩ := run_pure_ok ran
  exact ⟨y, w, s₁, s₂, u, sloped, rising, shifted, result, introduced, introduced', declared,
    times, added, times', added', rfl⟩

theorem addSegment_built {low high slope intercept : Int}
    (auxiliary : cfg.IsAuxiliary (family ++ "_sel"))
    (auxiliary' : cfg.IsAuxiliary (family ++ "_seg")) (formed : done.result.Formed s.model)
    (ran : (addSegment cfg family n k (.int low) (.int high) (some (.int slope))
      (some (.int intercept)) done).run s = (.ok done', s')) :
    ∃ pair, Built cfg s.model s'.model done done' [⟨low, high, slope, intercept⟩] [pair] := by
  obtain ⟨y, w, s₁, s₂, u, sloped, rising, shifted, result, introduced, introduced', declared,
    times, added, times', added', rfl⟩ := addSegment_ok ran
  obtain ⟨formedY, first⟩ := introduce_binary_adds auxiliary introduced
  obtain ⟨formedW, second⟩ := introduce_between_adds auxiliary' introduced'
  have third := declareRows_adds
    (segmentRows_states (second.extension.formed formedY) formedW) declared
  have lastY := third.extension.formed (second.extension.formed formedY)
  have lastW := third.extension.formed formedW
  have ext := (first.extension.trans second.extension).trans third.extension
  obtain ⟨formedS, values⟩ := Polynomial.mul_ok lastW (Polynomial.formed_const _ slope) times
  obtain ⟨formedR, values'⟩ := Polynomial.add_ok (ext.formed formed) formedS added
  obtain ⟨formedS', values''⟩ :=
    Polynomial.mul_ok lastY (Polynomial.formed_const _ intercept) times'
  obtain ⟨formedR', values'''⟩ := Polynomial.add_ok formedR formedS' added'
  refine ⟨(y, w), rfl, rfl, by simpa using ⟨lastY, lastW⟩, formedR', ?_, ?_⟩
  · intro a
    simp only [map_cons, map_nil, contributions, contribution, values''' a, values'' a,
      values' a, values a, Polynomial.valueAt_const, Number.toRat_int]
    ring
  · have both := (first.bind (fun _ _ v => ((min low 0 : Int) : ℚ) ≤ v ∧ v ≤ (max high 0 : Int))
      second fun _ _ _ _ _ => Iff.rfl).restrict
      (fun q _ => q.1 * low ≤ q.2 ∧ q.2 ≤ q.1 * high) third fun _ _ _ _ => Iff.rfl
    refine both.map (fun q => [q]) (fun _ => rfl) ?_
    intro a _ portions
    constructor
    · intro related
      obtain ⟨q, here, rfl⟩ := forall₂_singleton_left_iff.mp related
      refine ⟨q, ⟨⟨here.binary, ?_⟩, here.lower, here.upper⟩, rfl⟩
      simpa using here.between
    · rintro ⟨q, ⟨⟨binary, between⟩, lower, upper⟩, rfl⟩
      refine forall₂_singleton_left_iff.mpr ⟨q, ⟨binary, ?_, lower, upper⟩, rfl⟩
      simpa using between

theorem Built.append {m₁ m₂ : Model} {done'' : Segments} {g : Segment} {segments : List Segment}
    {pair : Polynomial × Polynomial} (first : Built cfg m m₁ done done' [g] [pair])
    (second : Built cfg m₁ m₂ done' done'' segments pairs) :
    Built cfg m m₂ done done'' (g :: segments) (pair :: pairs) where
  selectors := by rw [second.selectors, first.selectors, append_assoc]; rfl
  portions := by rw [second.portions, first.portions, append_assoc]; rfl
  formed q mem := by
    rcases mem_cons.mp mem with rfl | later
    · obtain ⟨left, right⟩ := first.formed q mem_cons_self
      exact ⟨second.added.extension.formed left, second.added.extension.formed right⟩
    · exact second.formed q later
  result := second.result
  value a := by
    rw [second.value a, first.value a]
    simp only [map_cons, map_nil, contributions]
    ring
  added := by
    refine (first.added.bind (fun _ _ portions => Forall₂ Portion segments portions)
      second.added fun _ _ _ _ _ => Iff.rfl).map (fun v => v.1 ++ v.2) (fun _ => rfl) ?_
    intro a _ portions
    constructor
    · intro related
      obtain ⟨q, rest, here, later, rfl⟩ := forall₂_cons_left_iff.mp related
      exact ⟨([q], rest), ⟨Forall₂.cons here Forall₂.nil, later⟩, rfl⟩
    · rintro ⟨⟨head, rest⟩, ⟨here, later⟩, rfl⟩
      obtain ⟨q, portion, rfl⟩ := forall₂_singleton_left_iff.mp here
      exact Forall₂.cons portion later

theorem built_nil (formed : done.result.Formed m) : Built cfg m m done done [] [] where
  selectors := (append_nil _).symm
  portions := (append_nil _).symm
  formed := by simp
  result := formed
  value a := by simp [contributions]
  added := (Expresses.of_read (fun _ => []) ⟨rfl, rfl, rfl, rfl⟩ fun _ _ _ => rfl).congr (by simp)

theorem addSegments_built {points slopes offsets : List Value}
    (auxiliary : cfg.IsAuxiliary (family ++ "_sel"))
    (auxiliary' : cfg.IsAuxiliary (family ++ "_seg"))
    (wholePoints : ∀ x ∈ points, ∃ i : Int, x = .int i)
    (wholeSlopes : ∀ x ∈ slopes, ∃ i : Int, x = .int i)
    (wholeIntercepts : ∀ x ∈ offsets, ∃ i : Int, x = .int i)
    (formed : done.result.Formed s.model)
    (ran : (addSegments cfg family n k points slopes offsets done).run s
      = (.ok done', s')) :
    ∃ pairs, Built cfg s.model s'.model done done'
      (Segment.ofData points slopes offsets) pairs := by
  induction points generalizing k slopes offsets done s with
  | nil =>
    obtain ⟨rfl, rfl⟩ := run_pure_ok ran
    exact ⟨[], built_nil formed⟩
  | cons _ rest ih =>
    cases rest with
    | nil =>
      obtain ⟨rfl, rfl⟩ := run_pure_ok ran
      exact ⟨[], built_nil formed⟩
    | cons high =>
      obtain ⟨middle, s₁, here, later⟩ := run_bind_ok.mp ran
      -- data that are too short for the breakpoints make the step fail
      obtain ⟨sloped, shifted⟩ := addSegment_data here
      cases slopes with
      | nil => exact absurd sloped Bool.false_ne_true
      | cons =>
        cases offsets with
        | nil => exact absurd shifted Bool.false_ne_true
        | cons =>
          rw [forall_mem_cons] at wholePoints wholeSlopes wholeIntercepts
          obtain ⟨l, rfl⟩ := wholePoints.1
          obtain ⟨h, rfl⟩ := wholePoints.2 high mem_cons_self
          obtain ⟨t, rfl⟩ := wholeSlopes.1
          obtain ⟨i, rfl⟩ := wholeIntercepts.1
          obtain ⟨pair, first⟩ := addSegment_built auxiliary auxiliary' formed here
          obtain ⟨pairs, second⟩ :=
            ih wholePoints.2 wholeSlopes.2 wholeIntercepts.2 first.result later
          exact ⟨pair :: pairs, first.append second⟩

theorem linkRows_states (formedE : e.Formed m) (formed : ∀ q ∈ pairs, q.1.Formed m ∧ q.2.Formed m) :
    StatesAll m (linkRows (pairs.map (·.1)) (pairs.map (·.2)) e) fun a =>
      ((pairs.map (·.1)).map (·.valueAt a)).sum = 1
        ∧ ((pairs.map (·.2)).map (·.valueAt a)).sum = e.valueAt a := by
  have selectors : ∀ y ∈ pairs.map (·.1), y.Formed m := by
    intro y mem
    obtain ⟨q, inside, rfl⟩ := mem_map.mp mem
    exact (formed q inside).1
  have portions : ∀ w ∈ pairs.map (·.2), w.Formed m := by
    intro w mem
    obtain ⟨q, inside, rfl⟩ := mem_map.mp mem
    exact (formed q inside).2
  refine StatesAll.cons (oneRow_states selectors) (StatesAll.single ?_)
  intro r computed
  obtain ⟨sum, summed, computed⟩ := bind_eq_ok.mp computed
  obtain ⟨lhs, minus, computed⟩ := bind_eq_ok.mp computed
  cases computed
  obtain ⟨formedS, values⟩ := total_ok portions summed
  obtain ⟨formedL, values'⟩ := Polynomial.sub_ok formedS formedE minus
  refine ⟨formedL, ⟨0, rfl⟩, fun a => ?_⟩
  rw [Row.HoldsAt, values' a, values a, Number.toRat_int, Int.cast_zero]
  exact sub_eq_zero

/-- A piecewise linear function takes its operand to what some segment that holds it gives. -/
theorem piecewise_adds {breakpoints slopes offsets : List Value}
    (wholePoints : ∀ x ∈ breakpoints, ∃ i : Int, x = .int i)
    (wholeSlopes : ∀ x ∈ slopes, ∃ i : Int, x = .int i)
    (wholeIntercepts : ∀ x ∈ offsets, ∃ i : Int, x = .int i) (formedE : e.Formed s.model)
    (ran : (piecewise cfg e breakpoints slopes offsets).run s = (.ok p, s')) :
    p.Formed s'.model ∧ Adds cfg s.model s'.model p.valueAt fun a v =>
      ∃ g ∈ Segment.ofData breakpoints slopes offsets, g.Gives (e.valueAt a) v := by
  obtain ⟨⟨family, n⟩, s₁, named, ran⟩ := run_bind_ok.mp ran
  obtain ⟨rfl, same⟩ := nextFamily_ok named
  obtain ⟨done, s₂, added, ran⟩ := run_bind_ok.mp ran
  obtain ⟨_, s₃, declared, ran⟩ := run_bind_ok.mp ran
  obtain ⟨rfl, rfl⟩ := run_pure_ok ran
  have toSame := same.extension cfg
  obtain ⟨pairs, built⟩ := addSegments_built (isAuxiliary_part cfg "pwl" "_sel")
    (isAuxiliary_part cfg "pwl" "_seg") wholePoints wholeSlopes wholeIntercepts
    (Polynomial.formed_const _ 0) added
  rw [built.selectors, built.portions] at declared
  have toLast := toSame.trans built.added.extension
  have link := declareRows_adds (linkRows_states (toLast.formed formedE) built.formed) declared
  refine ⟨link.extension.formed built.result, Expresses.same_left same ?_⟩
  -- the linking rows in terms of what the segments' variables read
  have link' : Adds cfg s₂.model s₃.model (fun _ => ()) fun a _ =>
      ((pairs.map fun q => (q.1.valueAt a, q.2.valueAt a)).map (·.1)).sum = 1
        ∧ ((pairs.map fun q => (q.1.valueAt a, q.2.valueAt a)).map (·.2)).sum = e.valueAt a :=
    link.congr fun a _ _ => by simp only [map_map]; rfl
  refine (built.added.restrict (fun portions a => (portions.map (·.1)).sum = 1
    ∧ (portions.map (·.2)).sum = e.valueAt a) link' ?_).map
    (contributions (Segment.ofData breakpoints slopes offsets)) ?_ ?_
  · intro portions a a' agrees
    rw [agrees.valueAt (toSame.formed formedE)]
  · intro a
    rw [built.value a]
    simp
  · intro a _ v
    rw [← portions_iff]
    constructor
    · rintro ⟨portions, related, one, sum, rfl⟩
      exact ⟨portions, ⟨related, one, sum⟩, rfl⟩
    · rintro ⟨portions, ⟨related, one, sum⟩, rfl⟩
      exact ⟨portions, related, one, sum, rfl⟩

end Piecewise

end Linearization

end LinearProgram
