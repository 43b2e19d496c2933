import LinearProgram.Proofs.Selection

/-!
# Exactness of maximum and minimum

At any assignment within the bounds the further variables can be given values (`Completes`), and
wherever they have values the extremum's polynomial has the value it should
(`Extremum.linearize_exact`).
-/

namespace LinearProgram

open List

namespace Linearization

/-- The new binary variables. -/
def newSelectors (m m' : Model) : List Variable :=
  (newColumns m m').filter fun v => v.kind == .binary

theorem newSelectors_of_columns {m m' : Model} {z : Variable} {selectors : List Variable}
    (columns : m'.columns = m.columns ++ z :: selectors) (continuous : z.kind = .continuous)
    (binary : ∀ v ∈ selectors, v.kind = .binary) : newSelectors m m' = selectors := by
  have others : selectors.filter (fun v => v.kind == .binary) = selectors :=
    filter_eq_self.mpr fun v mem => by simp [binary v mem]
  rw [newSelectors, newColumns, columns, drop_left, filter_cons, continuous, others]
  rfl

/-- What makes an addition an exact extremum at an assignment: it can be completed, and every
completion gives the polynomial the extremal value, picked by a selector if there are any. -/
structure ExactAt (op : Aggregate) (operands : List Polynomial) (m m' : Model) (r : Polynomial)
    (a : Assignment) : Prop where
  completed : ∃ a', Completes m m' a a'
  joins : ∀ a', Completes m m' a a' → op.Joins (operands.map (·.valueAt a)) (r.valueAt a')
  picks : ∀ a', Completes m m' a a' → newColumns m m' ≠ [] →
    Picks ((newSelectors m m').map (a'.value ·.key)) (operands.map (·.valueAt a)) (r.valueAt a')

section Extremal

variable {cfg : Config} {op : Aggregate} {u : ℚ → ℚ} {operands : List Polynomial}
  {m m' : Model} {r : Polynomial} {a : Assignment}

theorem Extremal.extension (extremal : Extremal cfg op u operands m m' r) :
    Extension cfg m m' := by
  cases extremal with
  | computed same => exact same.extension cfg
  | selected _ _ _ _ _ _ _ _ _ _ added => exact added.extension

/-- An extremum is exact within the bounds of the variables so far. -/
theorem Extremal.exactAt (greatest : op.GreatestBy u) (nonempty : operands ≠ [])
    (formed : ∀ e ∈ operands, e.Formed m) (extremal : Extremal cfg op u operands m m' r)
    (within : m.Within a) : ExactAt op operands m m' r a := by
  cases extremal with
  | computed same joins =>
    refine ⟨⟨a, fun _ _ => rfl, Meets.of_same same a⟩, ?_, ?_⟩
    · intro a' completes
      rw [← completes.map_valueAt formed]
      exact joins a'
    · intro a' _ new
      rw [newColumns, same.columns, drop_length] at new
      exact absurd rfl new
  | selected z selectors K H lo hi bs columns continuous binary added loose =>
    have loose := loose a within
    -- at a completion the operands have their old values
    have chosen : ∀ a', Completes m m' a a' → Chosen u K H lo hi (operands.map (·.valueAt a)) bs
        (r.valueAt a') (selectors.map (a'.value ·.key)) := by
      intro a' completes
      rw [← completes.map_valueAt formed]
      exact added.sound a' False.elim completes.meets
    refine ⟨?_, ?_, ?_⟩
    · have some : operands.map (·.valueAt a) ≠ [] := by simpa using nonempty
      obtain ⟨v, joins⟩ := greatest.exists_joins some
      obtain ⟨ys, chooses⟩ :=
        (chosen_iff greatest.injective loose).mpr ((greatest.joins_iff _ v).mp joins)
      obtain ⟨a', agrees, meets, -⟩ := added.complete a (v, ys) False.elim chooses
      exact ⟨a', agrees.columns, meets⟩
    · intro a' completes
      rw [greatest.joins_iff, ← chosen_iff greatest.injective loose]
      exact ⟨_, chosen a' completes⟩
    · intro a' completes _
      rw [newSelectors_of_columns columns continuous binary]
      exact (chosen a' completes).picks greatest.injective loose.low.length_eq.symm

end Extremal

inductive Extremum where
  | greatest
  | least

namespace Extremum

def aggregate : Extremum → Aggregate
  | greatest => .max
  | least => .min

def linearize : Extremum → Config → List Polynomial → Assembly Polynomial
  | greatest => maximum
  | least => minimum

/-- **An extremum is exact.** Whenever the maximum or minimum of operands with integer coefficients,
over variables whose bounds are integers or infinite, is linearized with an integer slack of at
least 1, the model keeps its variables and rows, and at every assignment within the bounds of these
the further variables have values within their bounds and kinds that satisfy the further rows, all
such values make the resulting polynomial the extremum of the operands, and if there are further
variables, exactly one selector is 1 and its operand attains that value. -/
theorem linearize_exact (extremum : Extremum) {cfg : Config} {k : Int}
    (slack : cfg.bigMSlack = .int k) (one : 1 ≤ k) {operands : List Polynomial} {s s' : Store}
    {r : Polynomial} (formed : ∀ e ∈ operands, e.Formed s.model)
    (exact : ∀ e ∈ operands, e.ExactOver s.model)
    (ran : (extremum.linearize cfg operands).run s = (.ok r, s')) :
    s.model.columns <+: s'.model.columns ∧ s.model.constraints <+: s'.model.constraints
      ∧ ∀ a, s.model.Within a → ExactAt extremum.aggregate operands s.model s'.model r a := by
  have extremal : ∃ u, extremum.aggregate.GreatestBy u ∧ operands ≠ []
      ∧ Extremal cfg extremum.aggregate u operands s.model s'.model r := by
    cases extremum with
    | greatest =>
      obtain ⟨nonempty, -, extremal⟩ := maximum_extremal slack one exact formed ran
      exact ⟨_, Aggregate.max_greatestBy, nonempty, extremal⟩
    | least =>
      obtain ⟨nonempty, -, extremal⟩ := minimum_extremal slack one exact formed ran
      exact ⟨_, Aggregate.min_greatestBy, nonempty, extremal⟩
  obtain ⟨u, greatest, nonempty, extremal⟩ := extremal
  obtain ⟨columns, more, -⟩ := extremal.extension.columns
  obtain ⟨rows, added, -⟩ := extremal.extension.constraints
  exact ⟨⟨columns, more.symm⟩, ⟨rows, added.symm⟩,
    fun a within => extremal.exactAt greatest nonempty formed within⟩

def doubleSlack : Config := { bigMSlack := .int 2 }

/-- A model with an integer variable between 0 and 3 and another variable between -1 and 2. -/
def workshop : Store :=
  { model := {
      columns := [
        ⟨⟨"parts", []⟩, .integer, some (.int 0), some (.int 3), "parts", .none, false⟩,
        ⟨⟨"fill", []⟩, .continuous, some (.int (-1)), some (.int 2), "fill", .none, false⟩]
      families := [("parts", [[]]), ("fill", [[]])] } }

def loads : List Polynomial :=
  [⟨[(⟨"parts", []⟩, .int 2)], .int 0⟩, ⟨[(⟨"fill", []⟩, .int 1)], .int 1⟩]

def halves : Assignment := ⟨fun _ => 1 / 2, fun _ => rfl⟩

theorem loads_formed : ∀ e ∈ loads, e.Formed workshop.model := by
  simp only [loads, forall_mem_cons]
  refine ⟨⟨⟨0, rfl⟩, ?_, ?_⟩, ⟨⟨1, rfl⟩, ?_, ?_⟩, by simp⟩
  · exact forall_mem_singleton.mpr ⟨2, by decide, rfl⟩
  · exact forall_mem_singleton.mpr rfl
  · exact forall_mem_singleton.mpr ⟨1, by decide, rfl⟩
  · exact forall_mem_singleton.mpr rfl

theorem workshop_exact : workshop.model.ExactBounds := by
  simp only [Model.ExactBounds, workshop, forall_mem_cons]
  exact ⟨⟨.inl ⟨0, rfl⟩, .inl ⟨3, rfl⟩⟩, ⟨.inl ⟨-1, rfl⟩, .inl ⟨2, rfl⟩⟩, by simp⟩

theorem halves_within : workshop.model.Within halves := by
  simp only [Model.Within, workshop, forall_mem_cons, Variable.bounds, Option.getD_some,
    Number.atMost_int, Number.atLeast_int, halves]
  norm_num

theorem maximum_loads :
    ∃ r s', (linearize .greatest doubleSlack loads).run workshop = (.ok r, s')
      ∧ newColumns workshop.model s'.model ≠ [] := by
  obtain ⟨r, ran⟩ := Assembly.exists_run_ok (x := linearize .greatest doubleSlack loads)
    (s := workshop) (by decide +kernel)
  exact ⟨r, _, ran, isEmpty_eq_false_iff.mp (by decide +kernel)⟩

/-- The greater of the two loads at one half, though the one variable is to be an integer. -/
theorem maximum_loads_exact : ∃ r s' a,
    (linearize .greatest doubleSlack loads).run workshop = (.ok r, s')
      ∧ Completes workshop.model s'.model halves a ∧ r.valueAt a = 3 / 2
      ∧ Picks ((newSelectors workshop.model s'.model).map (a.value ·.key)) [1, 3 / 2] (3 / 2) := by
  obtain ⟨r, s', ran, new⟩ := maximum_loads
  obtain ⟨-, -, exactAt⟩ := linearize_exact .greatest rfl (by decide : (1 : Int) ≤ 2) loads_formed
    (fun e _ => workshop_exact.over e) ran
  have here := exactAt halves halves_within
  have values : loads.map (·.valueAt halves) = [1, 3 / 2] := by
    norm_num [loads, halves, Polynomial.valueAt, Polynomial.sumAt]
  obtain ⟨a, completes⟩ := here.completed
  have picks := here.picks a completes new
  have joins := here.joins a completes
  rw [values] at joins picks
  have value : r.valueAt a = 3 / 2 := by
    obtain ⟨member, above⟩ := joins
    simp only [List.mem_cons, List.not_mem_nil, or_false] at member
    rcases member with one | half
    · have := above (3 / 2) (by simp)
      rw [one] at this
      norm_num at this
    · exact half
  rw [value] at picks
  exact ⟨r, s', a, ran, completes, value, picks⟩

end Extremum

end Linearization

end LinearProgram
