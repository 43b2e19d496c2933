import LinearProgram.Proofs.Rows

/-!
# Maximum and minimum

The greatest and the least of some operands are selections: a variable on one side of all operands,
and one selector that pins it to its operand. There are selectors exactly for the greatest one
(`chosen_iff`).
-/

namespace LinearProgram

open List

variable {m : Model} {op : Aggregate} {u : ℚ → ℚ} {better : Number → Number → Number} {K : ℚ}
  {rowsOf : Choice → List (Except Error Row)} {w : Int × Int → ℚ}

namespace Aggregate

/-- What an aggregate makes of its operands' values. -/
def Joins : Aggregate → List ℚ → ℚ → Prop
  | .max, values, v => v ∈ values ∧ ∀ x ∈ values, x ≤ v
  | .min, values, v => v ∈ values ∧ ∀ x ∈ values, v ≤ x
  | .and, values, v => (∀ x ∈ values, x = 0 ∨ x = 1)
    ∧ (v = 1 ∧ (∀ x ∈ values, x = 1) ∨ v = 0 ∧ 0 ∈ values)
  | .or, values, v => (∀ x ∈ values, x = 0 ∨ x = 1)
    ∧ (v = 1 ∧ 1 ∈ values ∨ v = 0 ∧ ∀ x ∈ values, x = 0)

/-- An aggregate that takes the value that is greatest after `u`. -/
structure GreatestBy (op : Aggregate) (u : ℚ → ℚ) : Prop where
  injective : Function.Injective u
  joins_iff : ∀ values v, op.Joins values v ↔ v ∈ values ∧ ∀ x ∈ values, u x ≤ u v

theorem max_greatestBy : Aggregate.max.GreatestBy id where
  injective := Function.injective_id
  joins_iff _ _ := Iff.rfl

/-- The least value is the greatest after negation. -/
theorem min_greatestBy : Aggregate.min.GreatestBy fun x => -x where
  injective := neg_injective
  joins_iff _ _ := by simp only [Joins, neg_le_neg_iff]

namespace GreatestBy

variable {op : Aggregate} {u : ℚ → ℚ} {values : List ℚ}

theorem unique (greatest : op.GreatestBy u) {v v' : ℚ} (joins : op.Joins values v)
    (joins' : op.Joins values v') : v = v' := by
  rw [greatest.joins_iff] at joins joins'
  exact greatest.injective (le_antisymm (joins'.2 v joins.1) (joins.2 v' joins'.1))

theorem exists_joins (greatest : op.GreatestBy u) (nonempty : values ≠ []) :
    ∃ v, op.Joins values v := by
  simp only [greatest.joins_iff]
  induction values with
  | nil => exact absurd rfl nonempty
  | cons x rest ih =>
    by_cases last : rest = []
    · exact ⟨x, by simp [last]⟩
    · obtain ⟨best, mem, all⟩ := ih last
      by_cases better : u best ≤ u x
      · refine ⟨x, mem_cons_self, forall_mem_cons.mpr ⟨le_refl _, ?_⟩⟩
        exact fun y inside => (all y inside).trans better
      · refine ⟨best, mem_cons_of_mem _ mem, forall_mem_cons.mpr ⟨?_, all⟩⟩
        exact (not_le.mp better).le

end GreatestBy

end Aggregate

namespace Linearization

open Assembly

variable {cfg : Config} {free : Prop} {s s' : Store}

/-! ## Selections

`z` is at least every operand, and at most the one whose selector is on. -/

/-- The rows of a selection at values: operands `es`, selectors `ys`, and lower bounds `bs` of the
operands; `h` is an upper bound of all of them. -/
def Selects (k h z : ℚ) : List ℚ → List ℚ → List ℚ → Prop
  | e :: es, y :: ys, b :: bs =>
    (e ≤ z ∧ z - e + y * (k * (h - b)) ≤ k * (h - b)) ∧ Selects k h z es ys bs
  | _, _, _ => True

section Selects

variable {k h z : ℚ} {es ys bs : List ℚ}

theorem le_of_selects (length : ys.length = es.length) (length' : bs.length = es.length)
    (selects : Selects k h z es ys bs) : ∀ e ∈ es, e ≤ z := by
  induction es generalizing ys bs with
  | nil => simp
  | cons _ _ ih =>
    obtain ⟨y, ys, rfl⟩ := exists_cons_of_length_eq_add_one length
    obtain ⟨b, bs, rfl⟩ := exists_cons_of_length_eq_add_one length'
    obtain ⟨⟨above, -⟩, rest⟩ := selects
    exact forall_mem_cons.mpr
      ⟨above, ih (by simpa using length) (by simpa using length') rest⟩

/-- A selector that is on pins `z` to its operand. -/
theorem getElem?_of_selects (length : ys.length = es.length) (length' : bs.length = es.length)
    (selects : Selects k h z es ys bs) {i : Nat} (on : ys[i]? = some 1) : es[i]? = some z := by
  induction es generalizing ys bs i with
  | nil =>
    have none : ys = [] := eq_nil_of_length_eq_zero (by simpa using length)
    simp [none] at on
  | cons e _ ih =>
    obtain ⟨y, ys, rfl⟩ := exists_cons_of_length_eq_add_one length
    obtain ⟨b, bs, rfl⟩ := exists_cons_of_length_eq_add_one length'
    obtain ⟨⟨above, below⟩, rest⟩ := selects
    cases i with
    | zero =>
      cases on
      have same : e = z := by linarith
      rw [same]
      rfl
    | succ => exact ih (by simpa using length) (by simpa using length') rest on

/-- Selectors that add up to 1 are off but for one. -/
theorem existsUnique_on (binary : ∀ y ∈ ys, y = 0 ∨ y = 1) (one : ys.sum = 1) :
    ∃! i : Nat, ys[i]? = some 1 := by
  induction ys with
  | nil => simp at one
  | cons y ys ih =>
    rw [forall_mem_cons] at binary
    rw [sum_cons] at one
    rcases binary.1 with rfl | rfl
    · obtain ⟨i, on, only⟩ := ih binary.2 (by simpa using one)
      refine ⟨i + 1, on, fun j on' => ?_⟩
      cases j with
      | zero => simp at on'
      | succ j => rw [only j on']
    · -- the others add up to 0, and none is negative
      have off : ∀ y ∈ ys, y = 0 := fun y mem =>
        all_zero_of_le_zero_le_of_sum_eq_zero
          (fun y inside => by rcases binary.2 y inside with rfl | rfl <;> simp)
          (by linarith) mem
      refine ⟨0, rfl, fun j on => ?_⟩
      cases j with
      | zero => rfl
      | succ => exact absurd (off 1 (mem_of_getElem? on)) one_ne_zero

/-- A big-M constant is loose enough for values within their bounds. -/
theorem slack_le {e b : ℚ} (one : 1 ≤ k) (distance : b ≤ h) (low : b ≤ e) (high : z ≤ h) :
    z - e ≤ k * (h - b) := by
  have scaled := le_mul_of_one_le_left (sub_nonneg.mpr distance) one
  linarith

theorem selects_zeros (one : 1 ≤ k) (low : Forall₂ (fun e b => b ≤ e) es bs)
    (above : ∀ e ∈ es, e ≤ z) (high : z ≤ h) :
    Selects k h z es (List.replicate es.length 0) bs := by
  induction low with
  | nil => trivial
  | @cons e b es bs here _ ih =>
    rw [forall_mem_cons] at above
    refine ⟨⟨above.1, ?_⟩, ih above.2⟩
    have := slack_le one (by linarith) here high
    linarith

/-- The rows of a selection hold for some selectors if `z` is the greatest operand. -/
theorem exists_selects (one : 1 ≤ k) (low : Forall₂ (fun e b => b ≤ e) es bs)
    (mem : z ∈ es) (all : ∀ e ∈ es, e ≤ z) (below : z ≤ h) :
    ∃ ys : List ℚ, ys.length = es.length ∧ (∀ y ∈ ys, y = 0 ∨ y = 1) ∧ ys.sum = 1
      ∧ Selects k h z es ys bs := by
  induction low with
  | nil => simp at mem
  | @cons e b es bs here rest ih =>
    rw [forall_mem_cons] at all
    by_cases same : z = e
    · -- select the first operand, and no other
      subst same
      refine ⟨1 :: List.replicate es.length 0, by simp, ?_, by simp, ?_⟩
      · intro y mem
        rcases mem_cons.mp mem with rfl | later
        · exact .inr rfl
        · exact .inl (eq_of_mem_replicate later)
      · exact ⟨⟨le_refl z, by linarith⟩, selects_zeros one rest all.2 below⟩
    · obtain ⟨ys, length, binary, one', selects⟩ :=
        ih ((mem_cons.mp mem).resolve_left same) all.2
      refine ⟨0 :: ys, by simp [length], ?_, by simp [one'], ?_⟩
      · exact forall_mem_cons.mpr ⟨.inl rfl, binary⟩
      · refine ⟨⟨all.1, ?_⟩, selects⟩
        have := slack_le one (by linarith) here below
        linarith

end Selects

/-! ## Choices

The minimum is a selection among the negatives: `u` is the identity or the negation. -/

/-- Exactly one selector is on, and its operand has the value `z`. -/
structure Picks (selectors values : List ℚ) (z : ℚ) : Prop where
  length : selectors.length = values.length
  one : ∃! k : Nat, selectors[k]? = some 1
  attained : ∀ k : Nat, selectors[k]? = some 1 → values[k]? = some z

/-- What a selection asks of its variable `z` and its selectors `ys`; `bs` are lower bounds of the
operands' values after `u`. -/
structure Chosen (u : ℚ → ℚ) (k h lo hi : ℚ) (values bs : List ℚ) (z : ℚ) (ys : List ℚ) :
    Prop where
  range : lo ≤ z ∧ z ≤ hi
  length : ys.length = values.length
  binary : ∀ y ∈ ys, y = 0 ∨ y = 1
  one : ys.sum = 1
  selects : Selects k h (u z) (values.map u) ys bs

/-- Constants that are loose enough for the operands' values. -/
structure Loose (u : ℚ → ℚ) (k h lo hi : ℚ) (values bs : List ℚ) : Prop where
  slack : 1 ≤ k
  low : Forall₂ (fun x b => b ≤ u x) values bs
  high : ∀ x ∈ values, u x ≤ h
  range : ∀ v ∈ values, (∀ x ∈ values, u x ≤ u v) → lo ≤ v ∧ v ≤ hi

section Chosen

variable {u : ℚ → ℚ} {k h lo hi z : ℚ} {values bs ys : List ℚ}

theorem Chosen.picks (injective : Function.Injective u) (length : bs.length = values.length)
    (chooses : Chosen u k h lo hi values bs z ys) : Picks ys values z where
  length := chooses.length
  one := existsUnique_on chooses.binary chooses.one
  attained i on := by
    have found := getElem?_of_selects (by simpa using chooses.length) (by simpa using length)
      chooses.selects on
    rw [getElem?_map, Option.map_eq_some_iff] at found
    obtain ⟨x, isX, same⟩ := found
    rw [isX, injective same]

/-- There are selectors for a value within the range exactly if it is the greatest after `u`. -/
theorem chosen_iff (injective : Function.Injective u) (loose : Loose u k h lo hi values bs) :
    (∃ ys, Chosen u k h lo hi values bs z ys) ↔ z ∈ values ∧ ∀ x ∈ values, u x ≤ u z := by
  constructor
  · rintro ⟨ys, chooses⟩
    have picks := chooses.picks injective loose.low.length_eq.symm
    obtain ⟨i, on, -⟩ := picks.one
    refine ⟨mem_of_getElem? (picks.attained i on), ?_⟩
    have above := le_of_selects (by simpa using chooses.length)
      (by simpa using loose.low.length_eq.symm) chooses.selects
    exact forall_mem_map.mp above
  · rintro ⟨mem, all⟩
    have low : Forall₂ (fun e b => b ≤ e) (values.map u) bs :=
      forall₂_map_left_iff.mpr loose.low
    obtain ⟨ys, length, binary, one, selects⟩ := exists_selects loose.slack low
      (mem_map_of_mem mem) (forall_mem_map.mpr all) (loose.high z mem)
    exact ⟨ys, loose.range z mem all, by simpa using length, binary, one, selects⟩

end Chosen

/-! ## The rows of a selection -/

section Rows

variable {m : Model} {z e y : Polynomial} {k h l : Int}

/-- The two rows of one operand of a maximum. -/
theorem maximumChoiceRows_states (formedZ : z.Formed m) (formedE : e.Formed m)
    (formedY : y.Formed m) (number : Nat) (upper : Number) :
    StatesAll m (maximumChoiceRows (.int k) z (.int h) ⟨number, e, y, .int l, upper⟩) fun a =>
      e.valueAt a ≤ z.valueAt a
        ∧ z.valueAt a - e.valueAt a + y.valueAt a * (k * (h - l)) ≤ k * (h - l) := by
  have selected := bigMRow_states (k := k) (h := h) (l := l) (· + ·) Polynomial.add_ok
    ("sel" ++ toString number) .atMost id (fun _ => rfl) formedZ formedE formedY
  refine (StatesAll.cons (plainRow_states _ .atLeast formedZ formedE)
    (StatesAll.single selected)).congr fun a => ?_
  simp [Relation.Relates]

/-- The two rows of one operand of a minimum are those of a maximum of the negatives. -/
theorem minimumChoiceRows_states (formedZ : z.Formed m) (formedE : e.Formed m)
    (formedY : y.Formed m) (number : Nat) (lower : Number) :
    StatesAll m (minimumChoiceRows (.int k) z (.int l) ⟨number, e, y, lower, .int h⟩) fun a =>
      -e.valueAt a ≤ -z.valueAt a
        ∧ -z.valueAt a - -e.valueAt a + y.valueAt a * (k * (-l - -h)) ≤ k * (-l - -h) := by
  have selected := bigMRow_states (k := k) (h := h) (l := l) (· - ·) Polynomial.sub_ok
    ("sel" ++ toString number) .atLeast Number.neg (fun _ => rfl) formedZ formedE formedY
  refine (StatesAll.cons (plainRow_states _ .atMost formedZ formedE)
    (StatesAll.single selected)).congr fun a => ?_
  simp only [Relation.Relates]
  push_cast
  constructor <;> rintro ⟨above, below⟩ <;> constructor <;> linarith

end Rows

/-! ## The additions of a selection

`w` takes from an operand's interval the end that bounds it from below after `u`. -/

/-- An interval with integer ends, as the linearization keeps it. -/
def ends (b : Int × Int) : Number × Number := (.int b.1, .int b.2)

section Selection

variable {m : Model} {z : Polynomial} {operands ys : List Polynomial} {bs : List (Int × Int)}
  {u : ℚ → ℚ} {w : Int × Int → ℚ} {K H : ℚ}

/-- The rows of all operands. -/
theorem choices_states
    (each : ∀ (number : Nat) (e y : Polynomial) (b : Int × Int), e.Formed m → y.Formed m →
      StatesAll m (rowsOf ⟨number, e, y, (ends b).1, (ends b).2⟩) fun a =>
        u (e.valueAt a) ≤ u (z.valueAt a)
          ∧ u (z.valueAt a) - u (e.valueAt a) + y.valueAt a * (K * (H - w b)) ≤ K * (H - w b))
    (formed : ∀ e ∈ operands, e.Formed m) (formed' : ∀ y ∈ ys, y.Formed m) (bs : List (Int × Int))
    (number : Nat) :
    StatesAll m ((choices number operands ys (bs.map ends)).flatMap rowsOf) fun a =>
      Selects K H (u (z.valueAt a)) (operands.map fun e => u (e.valueAt a))
        (ys.map (·.valueAt a)) (bs.map w) := by
  induction operands generalizing ys bs number with
  | nil => exact fun _ => trivial
  | cons e _ ih =>
    cases ys with
    | nil => exact fun _ => trivial
    | cons y =>
      cases bs with
      | nil => exact fun _ => trivial
      | cons b bs =>
        rw [forall_mem_cons] at formed formed'
        exact (each number e y b formed.1 formed'.1).append (ih formed.2 formed'.2 bs _)

end Selection

/-! ## Maximum and minimum -/

/-- How an extremum of operands is had, the greatest after `u`: as a polynomial over the variables
so far, or by a selection, whose selectors are the new variables after the first. -/
inductive Extremal (cfg : Config) (op : Aggregate) (u : ℚ → ℚ) (operands : List Polynomial)
    (m m' : Model) (p : Polynomial) : Prop
  | computed (same : m.Same m')
      (joins : ∀ a : Assignment, op.Joins (operands.map (·.valueAt a)) (p.valueAt a))
  | selected (z : Variable) (selectors : List Variable) (K H lo hi : ℚ) (bs : List ℚ)
      (columns : m'.columns = m.columns ++ z :: selectors) (continuous : z.kind = .continuous)
      (binary : ∀ v ∈ selectors, v.kind = .binary)
      (added : Adds cfg m m' (fun a => (p.valueAt a, selectors.map (a.value ·.key))) fun a v =>
        Chosen u K H lo hi (operands.map (·.valueAt a)) bs v.1 v.2)
      (loose : ∀ a, m.Within a → Loose u K H lo hi (operands.map (·.valueAt a)) bs)

section Extremum

variable {operands : List Polynomial} {p : Polynomial} {k : Int}

/-- An extremum realizes what it joins its operands to. -/
theorem realizes_of_extremal {m' : Model} (greatest : op.GreatestBy u)
    (made : operands ≠ [] ∧ p.Formed m' ∧ Extremal cfg op u operands m m' p) :
    p.Formed m' ∧ Realizes cfg free m m' p.valueAt fun a v =>
      op.Joins (operands.map (·.valueAt a)) v := by
  obtain ⟨nonempty, formed, extremal⟩ := made
  refine ⟨formed, ?_⟩
  cases extremal with
  | computed same joins =>
    have formed' : p.Formed m := formed.mono fun key => by
      simp only [Model.declared?, same.columns, imp_self]
    refine (Expresses.of_read p.valueAt same fun a a' agrees => agrees.valueAt formed').congr ?_
    intro a _ v
    exact ⟨fun other => greatest.unique other (joins a), fun same => same ▸ joins a⟩
  | selected _ _ _ _ _ _ _ _ _ _ added loose =>
    refine Realizes.of_blocks ((Realizes.of_adds added).map Prod.fst (fun _ => rfl) ?_) ?_
    · intro a admits v
      rw [greatest.joins_iff, ← chosen_iff greatest.injective (loose a (admits trivial).within)]
      constructor
      · rintro ⟨ys, chooses⟩
        exact ⟨(v, ys), chooses, rfl⟩
      · rintro ⟨⟨v, ys⟩, chooses, rfl⟩
        exact ⟨ys, chooses⟩
    · intro _ a _
      exact greatest.exists_joins (by simpa using nonempty)

/-- The first of the integers that are greatest after `u`. -/
theorem best_ints
    (picks : ∀ x y : Int, ∃ b : Int, better (.int x) (.int y) = .int b ∧ (b = x ∨ b = y)
      ∧ u x ≤ u b ∧ u y ≤ u b) {ns : List Int} (nonempty : ns ≠ []) :
    ∃ b ∈ ns, best better (ns.map .int) = .int b ∧ ∀ x ∈ ns, u x ≤ u b := by
  have general : ∀ (ns : List Int) (x : Int), ∃ b ∈ x :: ns,
      (ns.map Number.int).foldl better (.int x) = .int b ∧ ∀ y ∈ x :: ns, u y ≤ u b := by
    intro ns
    induction ns with
    | nil => exact fun x => ⟨x, mem_cons_self, rfl, by simp⟩
    | cons y _ ih =>
      intro x
      obtain ⟨c, picked, either, left, right⟩ := picks x y
      obtain ⟨b, mem, folded, all⟩ := ih c
      rw [forall_mem_cons] at all
      refine ⟨b, ?_, by rw [map_cons, foldl_cons, picked, folded], ?_⟩
      · rcases mem_cons.mp mem with rfl | later
        · rcases either with rfl | rfl <;> simp
        · simp [later]
      · simp only [forall_mem_cons]
        exact ⟨left.trans all.1, right.trans all.1, all.2⟩
  cases ns with
  | nil => exact absurd rfl nonempty
  | cons x rest => exact general rest x

theorem maxFirst_int (x y : Int) : (Number.int x).maxFirst (.int y) = .int (max x y) := by
  simp only [Number.maxFirst, Number.less_int, decide_eq_true_eq]
  split
  · rw [max_eq_right (by omega)]
  · rw [max_eq_left (by omega)]

theorem minFirst_int (x y : Int) : (Number.int x).minFirst (.int y) = .int (min x y) := by
  simp only [Number.minFirst, Number.less_int, decide_eq_true_eq]
  split
  · rw [min_eq_right (by omega)]
  · rw [min_eq_left (by omega)]

/-- The intervals of the operands, all of them finite. -/
theorem ranges_ok {operation : String} {ranges : List (Number × Number)}
    (exact : ∀ e ∈ operands, e.ExactOver s.model) (formed : ∀ e ∈ operands, e.Formed s.model)
    (ran : (operands.mapM fun e =>
      (liftM (s.model.finiteBoundsOf e operation) : Assembly (Number × Number))).run s
        = (.ok ranges, s')) :
    s = s' ∧ ∃ bs : List (Int × Int), ranges = bs.map ends ∧ bs.length = operands.length
      ∧ ∀ a, s.model.Within a → Forall₂ (fun x b => (b.1 : ℚ) ≤ x ∧ x ≤ b.2)
          (operands.map (·.valueAt a)) bs := by
  induction operands generalizing ranges with
  | nil =>
    obtain ⟨rfl, rfl⟩ := run_pure_ok ran
    exact ⟨rfl, [], rfl, rfl, fun _ _ => Forall₂.nil⟩
  | cons _ _ ih =>
    rw [mapM_cons] at ran
    obtain ⟨range, found, ran⟩ := run_lift_bind_ok.mp ran
    obtain ⟨others, s₂, later, done⟩ := run_bind_ok.mp ran
    obtain ⟨rfl, rfl⟩ := run_pure_ok done
    rw [forall_mem_cons] at formed exact
    obtain ⟨rfl, bs, rfl, length, within⟩ := ih exact.2 formed.2 later
    obtain ⟨l, u, rfl, bounds⟩ := Model.finiteBoundsOf_within exact.1 formed.1 found
    exact ⟨rfl, (l, u) :: bs, rfl, congrArg (· + 1) length,
      fun a ok => Forall₂.cons (bounds a ok) (within a ok)⟩

theorem map_ends_fst (bs : List (Int × Int)) :
    (bs.map ends).map (·.1) = (bs.map (·.1)).map Number.int := by
  simp only [map_map]
  rfl

theorem map_ends_snd (bs : List (Int × Int)) :
    (bs.map ends).map (·.2) = (bs.map (·.2)).map Number.int := by
  simp only [map_map]
  rfl

theorem constants_ok (formed : ∀ e ∈ operands, e.Formed m)
    (constant : operands.all Polynomial.isConstant = true) :
    ∃ ns : List Int, operands.map (·.constant) = ns.map .int
      ∧ ∀ a : Assignment, operands.map (·.valueAt a) = ns.map fun n : Int => (n : ℚ) := by
  induction operands with
  | nil => exact ⟨[], rfl, fun _ => rfl⟩
  | cons _ _ ih =>
    rw [forall_mem_cons] at formed
    rw [all_cons, Bool.and_eq_true] at constant
    obtain ⟨ns, constants, values⟩ := ih formed.2 constant.2
    obtain ⟨n, isN⟩ := formed.1.constant
    refine ⟨n :: ns, by rw [map_cons, constants, isN]; rfl, fun a => ?_⟩
    rw [map_cons, values a, Polynomial.valueAt_of_isConstant constant.1, isN]
    rfl

theorem single_extremal (greatest : op.GreatestBy u) : Extremal cfg op u [p] m m p := by
  refine .computed ⟨rfl, rfl, rfl, rfl⟩ fun a => (greatest.joins_iff _ _).mpr ?_
  exact ⟨mem_cons_self, forall_mem_singleton.mpr (le_refl _)⟩

theorem constants_extremal (greatest : op.GreatestBy u)
    (picks : ∀ x y : Int, ∃ b : Int, better (.int x) (.int y) = .int b ∧ (b = x ∨ b = y)
      ∧ u x ≤ u b ∧ u y ≤ u b) (nonempty : operands ≠ []) (formed : ∀ e ∈ operands, e.Formed m)
    (constant : operands.all Polynomial.isConstant = true) :
    (Polynomial.const (best better (operands.map (·.constant)))).Formed m
      ∧ Extremal cfg op u operands m m
        (Polynomial.const (best better (operands.map (·.constant)))) := by
  obtain ⟨ns, constants, values⟩ := constants_ok formed constant
  have nonempty' : ns ≠ [] := by
    rintro rfl
    exact nonempty (map_eq_nil_iff.mp constants)
  obtain ⟨b, mem, found, all⟩ := best_ints picks nonempty'
  rw [constants, found]
  refine ⟨Polynomial.formed_const m b, .computed ⟨rfl, rfl, rfl, rfl⟩ fun a => ?_⟩
  rw [Polynomial.valueAt_const, Number.toRat_int, values a, greatest.joins_iff]
  exact ⟨mem_map_of_mem mem, forall_mem_map.mpr all⟩

/-- Constants from the ends of the operands' intervals after `u`: `L` is one of the ends below, and
`H` is no less than any of those above. -/
theorem loose_of_ends {below : Int × Int → ℚ} (above : Int × Int → ℚ) {bs : List (Int × Int)}
    {L H lo hi : ℚ} {values : List ℚ} (one : 1 ≤ K) (isLow : ∃ b ∈ bs, below b = L)
    (high : ∀ b ∈ bs, above b ≤ H)
    (within : Forall₂ (fun x b => below b ≤ u x ∧ u x ≤ above b) values bs)
    (range : ∀ v, L ≤ u v → u v ≤ H → lo ≤ v ∧ v ≤ hi) :
    Loose u K H lo hi values (bs.map below) := by
  have high' : ∀ x ∈ values, u x ≤ H := by
    intro x mem
    obtain ⟨b, inside, bounds⟩ := exists_of_forall₂ within mem
    exact bounds.2.trans (high b inside)
  refine ⟨one, ?_, high', fun v mem greatest => range v ?_ (high' v mem)⟩
  · exact forall₂_map_right_iff.mpr (within.imp fun _ _ bounds => bounds.1)
  · -- the operand that the end below belongs to is no greater
    obtain ⟨b, inside, rfl⟩ := isLow
    obtain ⟨x, known, bounds⟩ := exists_of_forall₂ within.flip inside
    exact bounds.1.trans (greatest x known)

/-- A variable with selectors and the rows of a selection, with loose constants, are an extremum. -/
theorem selected_extremal {H : ℚ} {s₁ s₂ s₃ : Store} {operation : String} {n : Nat} {lo hi : Int}
    {ys : List Polynomial} {bs : List (Int × Int)} {done : Unit}
    (formed : ∀ e ∈ operands, e.Formed s.model) (same : s.model.Same s₁.model)
    (introduced : (introduce cfg (cfg.auxiliaryWord.text ++ "_" ++ operation) [n]
      .continuous (some (.int lo)) (some (.int hi))).run s₁ = (.ok p, s₂))
    (selected : (introduceSelectors cfg (cfg.auxiliaryWord.text ++ "_" ++ operation) n
      operands.length).run s₂ = (.ok ys, s₃))
    (declared : (declareRows cfg (cfg.auxiliaryWord.text ++ "_" ++ operation) n
      (oneRow ys :: (choices 1 operands ys (bs.map ends)).flatMap rowsOf)).run s₃
        = (.ok done, s'))
    (each : ∀ (m : Model) (number : Nat) (e y : Polynomial) (b : Int × Int), p.Formed m →
      e.Formed m → y.Formed m →
      StatesAll m (rowsOf ⟨number, e, y, (ends b).1, (ends b).2⟩) fun a =>
        u (e.valueAt a) ≤ u (p.valueAt a)
          ∧ u (p.valueAt a) - u (e.valueAt a) + y.valueAt a * (K * (H - w b)) ≤ K * (H - w b))
    (loose : ∀ a, s.model.Within a → Loose u K H lo hi (operands.map (·.valueAt a)) (bs.map w)) :
    p.Formed s'.model ∧ Extremal cfg op u operands s.model s'.model p := by
  obtain ⟨formedP, first⟩ :=
    introduce_between_adds (isAuxiliary_family cfg operation) introduced
  obtain ⟨formedYs, second⟩ :=
    introduceSelectors_adds (isAuxiliary_part cfg operation "_sel") selected
  have formed' : ∀ e ∈ operands, e.Formed s₁.model :=
    fun e mem => (same.extension cfg).formed (formed e mem)
  have third := declareRows_adds (StatesAll.cons (oneRow_states formedYs)
    (choices_states (each s₃.model · · · · (second.extension.formed formedP))
      (fun e mem => (first.extension.trans second.extension).formed (formed' e mem)) formedYs
      bs 1)) declared
  -- first the variables, then the rows as a condition on what they read
  have columns := first.bind (fun _ _ (vs : List ℚ) => vs.length = operands.length
    ∧ ∀ v ∈ vs, v = 0 ∨ v = 1) second fun _ _ _ _ _ => Iff.rfl
  have both := columns.restrict (fun v a => v.2.sum = 1
    ∧ Selects K H (u v.1) (operands.map fun e => u (e.valueAt a)) v.2 (bs.map w)) third (by
      intro v a a' agrees
      have same : (operands.map fun e => u (e.valueAt a'))
          = operands.map fun e => u (e.valueAt a) :=
        map_congr_left fun e mem => by rw [agrees.valueAt (formed' e mem)]
      rw [same])
  have asked : Adds cfg s.model s'.model (fun a => (p.valueAt a, ys.map (·.valueAt a))) fun a v =>
      Chosen u K H lo hi (operands.map (·.valueAt a)) (bs.map w) v.1 v.2 := by
    refine (both.same_left same).congr fun a _ v => ?_
    constructor
    · rintro ⟨range, length, binary, one, selects⟩
      rw [map_map] at selects
      exact ⟨⟨range, by simpa using length, binary⟩, one, selects⟩
    · rintro ⟨⟨range, length, binary⟩, one, selects⟩
      exact ⟨range, by simpa using length, binary, one, by rw [map_map]; exact selects⟩
  obtain ⟨z, -, continuous, -, -, -, -, -, model⟩ := introduce_ok introduced
  obtain ⟨selectors, known, rfl, binary⟩ := introduceSelectors_columns selected
  refine ⟨third.extension.formed (second.extension.formed formedP),
    .selected z selectors K H lo hi (bs.map w) ?_ continuous binary ?_ loose⟩
  · rw [declareRows_columns declared, known, model, Model.addVariable, same.columns,
      append_assoc]
    rfl
  · refine asked.map id (fun a => ?_) (by simp)
    simp only [map_map, Function.comp_def, Polynomial.valueAt_ofKey, id]

/-- The steps of a selection give the extremum, if its rows state that and its constants are
loose. -/
theorem selection_extremal {label : String}
    {rows : Number → Number → Polynomial → Choice → List (Except Error Row)} {H : Int → Int → ℚ}
    (greatest : op.GreatestBy u)
    (picks : ∀ x y : Int, ∃ b : Int, better (.int x) (.int y) = .int b ∧ (b = x ∨ b = y)
      ∧ u x ≤ u b ∧ u y ≤ u b)
    (each : ∀ {m : Model} {z e y : Polynomial} (lo hi : Int) (number : Nat) (b : Int × Int),
      z.Formed m → e.Formed m → y.Formed m →
      StatesAll m (rows (.int lo) (.int hi) z ⟨number, e, y, .int b.1, .int b.2⟩) fun a =>
        u (e.valueAt a) ≤ u (z.valueAt a) ∧ u (z.valueAt a) - u (e.valueAt a)
          + y.valueAt a * (K * (H lo hi - w b)) ≤ K * (H lo hi - w b))
    (loose : ∀ {lo hi : Int} {bs : List (Int × Int)} {values : List ℚ}, lo ∈ bs.map (·.1) →
      hi ∈ bs.map (·.2) → (∀ b ∈ bs, u b.1 ≤ u lo ∧ u b.2 ≤ u hi) →
      Forall₂ (fun x b => (b.1 : ℚ) ≤ x ∧ x ≤ b.2) values bs →
      Loose u K (H lo hi) lo hi values (bs.map w)) (exact : ∀ e ∈ operands, e.ExactOver s.model)
    (formed : ∀ e ∈ operands, e.Formed s.model)
    (ran : (selection cfg operands label better rows).run s = (.ok p, s')) :
    operands ≠ [] ∧ p.Formed s'.model ∧ Extremal cfg op u operands s.model s'.model p := by
  unfold selection at ran
  split at ran
  case h_1 => exact absurd ran run_refuse_ne_ok
  case h_2 e =>
    obtain ⟨rfl, rfl⟩ := run_pure_ok ran
    exact ⟨cons_ne_nil _ _, formed e mem_cons_self, single_extremal greatest⟩
  case h_3 nonempty _ =>
    refine ⟨nonempty, ?_⟩
    split at ran
    case isTrue constant =>
      obtain ⟨rfl, rfl⟩ := run_pure_ok ran
      exact constants_extremal greatest picks nonempty formed constant
    case isFalse =>
      obtain ⟨m, s₁, read, ran⟩ := run_bind_ok.mp ran
      cases read
      obtain ⟨ranges, s₂, found, ran⟩ := run_bind_ok.mp ran
      obtain ⟨rfl, bs, rfl, length, within⟩ := ranges_ok exact formed found
      obtain ⟨⟨family, n⟩, s₃, named, ran⟩ := run_bind_ok.mp ran
      obtain ⟨rfl, same⟩ := nextFamily_ok named
      obtain ⟨z, s₄, introduced, ran⟩ := run_bind_ok.mp ran
      obtain ⟨ys, s₅, selected, ran⟩ := run_bind_ok.mp ran
      obtain ⟨_, s₆, declared, ran⟩ := run_bind_ok.mp ran
      obtain ⟨rfl, rfl⟩ := run_pure_ok ran
      have intervals : bs ≠ [] := fun none =>
        nonempty (eq_nil_of_length_eq_zero (by rw [← length, none]; rfl))
      obtain ⟨lo, isLow, lowest, low⟩ := best_ints picks (mt map_eq_nil_iff.mp intervals)
      obtain ⟨hi, isHigh, highest, high⟩ := best_ints picks (mt map_eq_nil_iff.mp intervals)
      rw [map_ends_fst, lowest, map_ends_snd, highest] at introduced declared
      exact selected_extremal formed same introduced selected declared
        (fun m number e y b formedZ => each lo hi number b formedZ)
        fun a ok => loose isLow isHigh (fun b inside =>
          ⟨low _ (mem_map_of_mem inside), high _ (mem_map_of_mem inside)⟩) (within a ok)

section

variable (slack : cfg.bigMSlack = .int k) (one : 1 ≤ k)
  (exact : ∀ e ∈ operands, e.ExactOver s.model) (formed : ∀ e ∈ operands, e.Formed s.model)
include slack one exact formed

theorem maximum_extremal (ran : (maximum cfg operands).run s = (.ok p, s')) :
    operands ≠ [] ∧ p.Formed s'.model ∧ Extremal cfg .max id operands s.model s'.model p := by
  rw [maximum, slack] at ran
  refine selection_extremal (K := k) (H := fun _ hi => hi) (w := fun b => b.1)
    Aggregate.max_greatestBy (fun x y => ⟨max x y, maxFirst_int x y, max_choice x y, ?_⟩)
    (fun lo hi number b formedZ formedE formedY =>
      maximumChoiceRows_states formedZ formedE formedY number _)
    (fun {lo hi bs values} isLow _ best within => ?_) exact formed ran
  · exact ⟨Int.cast_le.mpr (le_max_left x y), Int.cast_le.mpr (le_max_right x y)⟩
  · exact loose_of_ends (fun b => b.2) (L := lo) (by exact_mod_cast one)
      (by simpa using isLow) (fun b inside => (best b inside).2) within
      fun v low high => ⟨low, high⟩

theorem minimum_extremal (ran : (minimum cfg operands).run s = (.ok p, s')) :
    operands ≠ [] ∧ p.Formed s'.model
      ∧ Extremal cfg .min (fun x => -x) operands s.model s'.model p := by
  rw [minimum, slack] at ran
  refine selection_extremal (K := k) (H := fun lo _ => -lo) (w := fun b => -b.2)
    Aggregate.min_greatestBy (fun x y => ⟨min x y, minFirst_int x y, min_choice x y, ?_⟩)
    (fun lo hi number b formedZ formedE formedY =>
      minimumChoiceRows_states formedZ formedE formedY number _)
    (fun {lo hi bs values} _ isHigh best within => ?_) exact formed ran
  · exact ⟨neg_le_neg (Int.cast_le.mpr (min_le_left x y)),
      neg_le_neg (Int.cast_le.mpr (min_le_right x y))⟩
  · refine loose_of_ends (fun b => -b.1) (L := -hi) (by exact_mod_cast one)
      (by simpa using isHigh) (fun b inside => (best b inside).1)
      (within.imp fun _ _ bounds => ⟨neg_le_neg bounds.2, neg_le_neg bounds.1⟩) fun v low high => ?_
    exact ⟨neg_le_neg_iff.mp high, neg_le_neg_iff.mp low⟩

end

end Extremum

end Linearization

end LinearProgram
