import LinearProgram.Proofs.Journal

/-!
# Steps that see nothing but the model

Whether a step succeeds, and what it makes of the model, depends on the model alone (`Uniform`). So
a successful run can be moved to any other store with the same model.
-/

namespace LinearProgram

variable {records : List LogRecord}

/-- A step that succeeds alike from all stores with one model: with the same result, and with models
that are the same again. -/
def Uniform {α : Type} (x : Assembly α) : Prop :=
  ∀ ⦃s t s' : Store⦄ ⦃a : α⦄, s.model = t.model → x.run s = (.ok a, s') →
    ∃ t', x.run t = (.ok a, t') ∧ t'.model = s'.model

/-- A step leads from one model to another with a result. -/
def Leads {α : Type} (x : Assembly α) (m : Model) (a : α) (m' : Model) : Prop :=
  ∃ s s' : Store, s.model = m ∧ x.run s = (.ok a, s') ∧ s'.model = m'

theorem leads_pure {α : Type} {a b : α} {m m' : Model} :
    Leads (pure a) m b m' ↔ a = b ∧ m = m' := by
  constructor
  · rintro ⟨s, s', rfl, ran, rfl⟩
    obtain ⟨same, rfl⟩ := Assembly.run_pure_ok ran
    exact ⟨same, rfl⟩
  · rintro ⟨rfl, rfl⟩
    exact ⟨{ model := m }, { model := m }, rfl, rfl, rfl⟩

theorem leads_report {u : Unit} {m m' : Model} :
    Leads (Assembly.report records) m u m' ↔ m = m' := by
  constructor
  · rintro ⟨s, s', rfl, ran, rfl⟩
    cases ran
    rfl
  · rintro rfl
    exact ⟨{ model := m }, _, rfl, Assembly.run_report records _, rfl⟩

namespace Uniform

open Assembly

variable {α β : Type} {x : Assembly α}

/-! ## Single steps -/

theorem pure {a : α} : Uniform (pure a : Assembly α) := by
  intro s t s' b same ran
  cases ran
  exact ⟨t, rfl, same.symm⟩

theorem lift {result : Except Error α} : Uniform (liftM result : Assembly α) := by
  intro s t s' a same ran
  obtain ⟨rfl, rfl⟩ := run_lift_ok.mp ran
  exact ⟨t, rfl, same.symm⟩

theorem model : Uniform Assembly.model := by
  intro s t s' m same ran
  cases ran
  exact ⟨t, by rw [run_model, same], same.symm⟩

theorem report : Uniform (report records) := by
  intro s t s' u same ran
  cases ran
  exact ⟨_, run_report records t, same.symm⟩

theorem change {f : Model → Model} {undo : Undo} : Uniform (change f undo) := by
  intro s t s' u same ran
  cases ran
  exact ⟨_, run_change f undo t, congrArg f same.symm⟩

theorem nextIndex {counter : String} : Uniform (nextIndex counter) := by
  intro s t s' n same ran
  rw [run_nextIndex] at ran
  cases ran
  refine ⟨_, by rw [run_nextIndex, same], ?_⟩
  dsimp only
  rw [same]

/-! ## Combinations -/

theorem bind {f : α → Assembly β} (first : Uniform x) (rest : ∀ a, Uniform (f a)) :
    Uniform (x >>= f) := by
  intro s t s'' b same ran
  obtain ⟨a, s', here, later⟩ := run_bind_ok.mp ran
  obtain ⟨t', here', same'⟩ := first same here
  obtain ⟨t'', later', same''⟩ := rest a same'.symm later
  exact ⟨t'', run_bind_ok.mpr ⟨a, t', here', later'⟩, same''⟩

/-- A step runs in a transaction from one store as it runs from any other one. -/
theorem run_transaction (step : Uniform x) {s t s' : Store} {a : α} (same : s.model = t.model)
    (ran : x.run s = (.ok a, s')) :
    ∃ t', (Assembly.transaction x).run t = (.ok a, t') ∧ t'.model = s'.model := by
  cases entry : t.transaction with
  | some =>
    rw [run_transaction_inner entry]
    exact step same ran
  | none =>
    have opened : s.model = t.begun.model := same
    obtain ⟨after, inner, same'⟩ := step opened ran
    exact ⟨_, run_transaction_commit entry inner, same'⟩

theorem transaction (step : Uniform x) : Uniform (transaction x) := by
  intro s t s' a same ran
  obtain ⟨before, after, entry, inner, exit⟩ := run_transaction_ok ran
  rw [exit]
  exact step.run_transaction (entry.trans same) inner

/-! ## Runs between models -/

section Leads

variable {x : Assembly α} {m m' : Model} {a : α}

/-- Where a uniform step leads can be seen from any store with the model. -/
theorem leads_iff (uniform : Uniform x) {s : Store} :
    Leads x s.model a m' ↔ ∃ s', x.run s = (.ok a, s') ∧ s'.model = m' := by
  constructor
  · rintro ⟨t, t', same, ran, rfl⟩
    exact uniform same ran
  · rintro ⟨s', ran, rfl⟩
    exact ⟨s, s', rfl, ran, rfl⟩

theorem leads_bind {f : α → Assembly β} {b : β} (rest : ∀ a, Uniform (f a)) :
    Leads (x >>= f) m b m' ↔ ∃ a between, Leads x m a between ∧ Leads (f a) between b m' := by
  constructor
  · rintro ⟨s, s'', rfl, ran, rfl⟩
    obtain ⟨a, s', here, later⟩ := run_bind_ok.mp ran
    exact ⟨a, s'.model, ⟨s, s', rfl, here, rfl⟩, ⟨s', s'', rfl, later, rfl⟩⟩
  · rintro ⟨a, between, ⟨s, s', rfl, here, rfl⟩, later⟩
    obtain ⟨s'', later', rfl⟩ := (rest a).leads_iff.mp later
    exact ⟨s, s'', rfl, run_bind_ok.mpr ⟨a, s', here, later'⟩, rfl⟩

theorem leads_transaction (step : Uniform x) :
    Leads (Assembly.transaction x) m a m' ↔ Leads x m a m' := by
  constructor
  · rintro ⟨s, s', rfl, ran, rfl⟩
    obtain ⟨before, after, entry, inner, exit⟩ := run_transaction_ok ran
    exact ⟨before, after, entry, inner, exit.symm⟩
  · rintro ⟨s, s', rfl, ran, rfl⟩
    obtain ⟨t', ran', same⟩ := step.run_transaction rfl ran
    exact ⟨s, t', rfl, ran', same⟩

end Leads

theorem of_changing (step : Composed Changing (fun _ => True) x) : Uniform x := by
  induction step with
  | pure => exact pure
  | lift => exact lift
  | model => exact model
  | report => exact report
  | atom isAtom =>
    cases isAtom with
    | nextIndex => exact nextIndex
    | change => exact change
  | bind _ _ first rest => exact first.bind rest
  | transaction _ step => exact step.transaction

/-- What operations add depends on the model alone. -/
theorem of_composed {cfg : Config} {allowed : Variable → Prop}
    (step : Operates cfg allowed x) : Uniform x :=
  of_changing (step.refine (fun _ => id) .of_operating)

end Uniform

end LinearProgram
