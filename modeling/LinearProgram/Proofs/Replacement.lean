import LinearProgram.Proofs.References

/-!
# Replacing an objective

The auxiliary rows of a replaced objective stay in the model. They leave the assignments at which
its tree has a value (`setObjective_narrows`); only a piecewise linear function of variables can be
without one.
-/

namespace LinearProgram

open List

variable {expr : Expr} {direction : Value} {result : Objective}

/-- The assignments of the declared variables that are feasible for some values of the auxiliary
ones.
-/
def Model.Projects (m : Model) (a : Assignment) : Prop :=
  ∃ a' : Assignment, (∀ v ∈ m.columns, v.auxiliary = false → a'.value v.key = a.value v.key)
    ∧ m.Feasible a'

/-- Rows over declared instances look at nothing but the columns. -/
theorem Constraint.Grounded.holdsNormalized_congr {m : Model} {c : Constraint}
    (grounded : c.Grounded m) {a a' : Assignment}
    (columns : ∀ v ∈ m.columns, a'.value v.key = a.value v.key) (holds : c.HoldsNormalized a) :
    c.HoldsNormalized a' := by
  obtain ⟨linear, bound, normalized, related⟩ := holds
  obtain ⟨linear', bound', normalized', -, known⟩ := grounded.normalized
  obtain ⟨rfl, rfl⟩ := Prod.mk.inj (Except.ok.inj (normalized.symm.trans normalized'))
  refine ⟨linear, bound, normalized, ?_⟩
  rw [Polynomial.valueAt_congr known columns]
  exact related

/-- A step that adds auxiliary variables and rows which together demand something of the assignments
so far, and no more. -/
structure Narrows (cfg : Config) (m m' : Model) (demand : Assignment → Prop) : Prop where
  columns : ∃ new, m'.columns = m.columns ++ new ∧ ∀ v ∈ new, v.auxiliary = true
  restricts : ∀ a, m'.Feasible a → m.Feasible a ∧ demand a
  completes : ∀ a, m.Feasible a → demand a → ∃ a', Agrees cfg m a a' ∧ m'.Feasible a'

/-- Assignments of the declared variables are narrowed alike, if the demand looks at these only. -/
theorem Narrows.projects {cfg : Config} {m m' : Model} {demand : Assignment → Prop}
    (narrows : Narrows cfg m m' demand)
    (visible : ∀ {a a' : Assignment},
      (∀ v ∈ m.columns, v.auxiliary = false → a'.value v.key = a.value v.key) →
        demand a → demand a') (a : Assignment) :
    m'.Projects a ↔ m.Projects a ∧ demand a := by
  obtain ⟨new, columns, auxiliary⟩ := narrows.columns
  constructor
  · rintro ⟨a', declared, feasible⟩
    obtain ⟨old, meets⟩ := narrows.restricts a' feasible
    have same : ∀ v ∈ m.columns, v.auxiliary = false → a'.value v.key = a.value v.key := by
      intro v mem
      exact declared v (by rw [columns]; exact mem_append_left _ mem)
    exact ⟨⟨a', same, old⟩, visible (fun v mem flag => (same v mem flag).symm) meets⟩
  · rintro ⟨⟨a', declared, feasible⟩, meets⟩
    obtain ⟨a'', agrees, feasible'⟩ := narrows.completes a' feasible (visible declared meets)
    refine ⟨a'', fun v mem flag => ?_, feasible'⟩
    rw [columns] at mem
    rcases mem_append.mp mem with old | young
    · exact (agrees.columns v old).trans (declared v old flag)
    · rw [auxiliary v young] at flag
      cases flag

namespace Compilation

open Assembly

variable {cfg : Config} {params : Parameters} {s s' : Store}

section

variable (ran : (setObjective cfg params expr direction true).run s = (.ok result, s'))
include ran

theorem setObjective_compiles : ∃ before p after objective, before.model = s.model
      ∧ (compile cfg expr { parameters := params }).run before = (.ok p, after)
      ∧ s'.model = { after.model with objective } := by
  obtain ⟨before, after, entry, inner, exit⟩ := run_transaction_ok ran
  obtain ⟨p, s₁, compiled, inner⟩ := run_bind_ok.mp inner
  obtain ⟨direction', -, inner⟩ := run_lift_bind_ok.mp inner
  obtain ⟨-, model⟩ := Assembly.setObjective_ok inner
  exact ⟨before, p, s₁, _, entry, compiled, exit.trans model⟩

/-- Setting an objective demands that its tree has a value. -/
theorem setObjective_narrows (sound : s.model.Sound)
    (input : ExactInput cfg False s.model { parameters := params } expr) :
    Narrows cfg s.model s'.model (fun a => ∃ v, Means s.model a { parameters := params } expr v)
      ∧ s'.model.ExactBounds
      ∧ ∀ families, (∀ family ∈ families, ¬ cfg.IsAuxiliary family) →
        s.model.AlikeOn families s'.model := by
  obtain ⟨before, p, s₁, objective, entry, compiled, model⟩ := setObjective_compiles ran
  rw [← entry] at sound input ⊢
  obtain ⟨-, realizes⟩ := compile_realizes input compiled
  obtain ⟨new, columns, auxiliary⟩ := realizes.extension.columns
  obtain ⟨rows, constraints, formed⟩ := realizes.extension.constraints
  rw [model]
  have newRows : NewRowsHold before.model s₁.model = fun a => ∀ c ∈ rows, c.HoldsAt a := by
    funext a
    rw [NewRowsHold, constraints, drop_left]
  have feasible : ∀ a, Model.Feasible { s₁.model with objective } a
      ↔ s₁.model.Admits a ∧ (∀ c ∈ before.model.constraints, c.HoldsNormalized a)
        ∧ NewRowsHold before.model s₁.model a := by
    intro a
    show s₁.model.Admits a ∧ (∀ c ∈ s₁.model.constraints, c.HoldsNormalized a) ↔ _
    rw [constraints, forall_mem_append, newRows]
    refine and_congr_right fun _ => and_congr_right fun _ => forall₂_congr fun c mem => ?_
    exact Constraint.holdsNormalized_iff (formed c mem).1 (formed c mem).2 a
  refine ⟨⟨⟨new, columns, fun v mem => (auxiliary v mem).2⟩, ?_, ?_⟩,
    realizes.extension.exact input.bounds, fun families plain => realizes.extension.alikeOn plain⟩
  · intro a isFeasible
    obtain ⟨admits, old, added⟩ := (feasible a).mp isFeasible
    exact ⟨⟨realizes.extension.admits admits, old⟩, p.valueAt a, realizes.reading admits added⟩
  · rintro a ⟨admits, old⟩ ⟨v, means⟩
    obtain ⟨a', agrees, admits', added, -⟩ := realizes.extend admits means
    refine ⟨a', agrees, (feasible a').mpr ⟨admits', fun c mem => ?_, added⟩⟩
    exact (sound.rows c mem).holdsNormalized_congr agrees.columns (old c mem)

/-- Without piecewise linear functions of variables, the tree of an objective has a value wherever
bounds and kinds are respected. -/
theorem setObjective_total (input : ExactInput cfg True s.model { parameters := params } expr)
    {a : Assignment} (admits : s.model.Admits a) :
    ∃ v, Means s.model a { parameters := params } expr v := by
  obtain ⟨before, p, after, objective, entry, compiled, -⟩ := setObjective_compiles ran
  rw [← entry] at input admits ⊢
  exact (compile_realizes input compiled).2.total trivial a admits

end

section

variable (session : Session cfg s)
include session

/-- What the compiler introduced in a session is named for it. -/
theorem Session.flags :
    ∀ v ∈ s.model.columns, v.auxiliary = true → cfg.IsAuxiliary v.key.family := by
  intro v mem flag
  obtain ⟨u, part, -, key, -⟩ := session.sound.1.numbered.columns v mem flag
  rw [key]
  exact ⟨u.operator.word ++ part.suffix, by
    show u.partFamily cfg part = _
    rw [u.partFamily_eq, Use.family, String.append_assoc]⟩

/-- A tree that avoids auxiliary families means the same at assignments that agree on the declared
variables. -/
theorem Session.means_congr {e : Expr} (avoids : e.Avoids cfg) {ctx : Context}
    {a a' : Assignment} {v : ℚ}
    (declared : ∀ u ∈ s.model.columns, u.auxiliary = false → a'.value u.key = a.value u.key)
    (means : Means s.model a ctx e v) : Means s.model a' ctx e v := by
  refine means.transfer (P := fun family => ¬ cfg.IsAuxiliary family) (fun _ _ => .refl _ _) ?_
    avoids
  intro key plain known
  obtain ⟨u, found⟩ := Option.isSome_iff_exists.mp known
  obtain ⟨mem, same⟩ := Model.declared?_some found
  rw [← a'.respects same, ← a.respects same]
  refine declared u mem (Bool.eq_false_iff.mpr fun flag => plain ?_)
  rw [← VarKey.family_of_equal same]
  exact session.flags u mem flag

variable (ran : (setObjective cfg params expr direction true).run s = (.ok result, s'))
include ran

theorem Session.setObjective : Session cfg s' := by
  have next := session.statement params true (.objective expr direction)
  rw [applyStatement, run_bind, ran] at next
  exact next

/-- Setting an objective in a session leaves the assignments at which its tree has a value. -/
theorem setObjective_projects (input : ExactInput cfg False s.model { parameters := params } expr)
    (a : Assignment) :
    s'.model.Projects a
      ↔ s.model.Projects a ∧ ∃ v, Means s.model a { parameters := params } expr v := by
  refine (setObjective_narrows ran session.sound.2.2 input).1.projects ?_ a
  rintro a a' declared ⟨v, means⟩
  exact ⟨v, session.means_congr input.avoids declared means⟩

/-- A tree without piecewise linear functions of variables has a value at every feasible
assignment. -/
theorem setObjective_value (input : ExactInput cfg True s.model { parameters := params } expr)
    {a : Assignment} (projects : s.model.Projects a) :
    ∃ v, Means s.model a { parameters := params } expr v := by
  obtain ⟨a', declared, feasible⟩ := projects
  obtain ⟨v, means⟩ := setObjective_total ran input feasible.1
  exact ⟨v, session.means_congr input.avoids (fun u mem flag => (declared u mem flag).symm)
    means⟩

end

/-- A second objective leaves, of the assignments that it would leave alone, those at which the tree
of the first has a value. -/
theorem setObjective_setObjective_projects {s₁ s₂ s₁₂ : Store} {e₁ e₂ : Expr} {d₁ d₂ d₂' : Value}
    {o₁ o₂ o₁₂ : Objective} (session : Session cfg s)
    (first : ExactInput cfg False s.model { parameters := params } e₁)
    (second : ExactInput cfg False s.model { parameters := params } e₂)
    (ran₁ : (setObjective cfg params e₁ d₁ true).run s = (.ok o₁, s₁))
    (ran₁₂ : (setObjective cfg params e₂ d₂ true).run s₁ = (.ok o₁₂, s₁₂))
    (ran₂ : (setObjective cfg params e₂ d₂' true).run s = (.ok o₂, s₂)) (a : Assignment) :
    s₁₂.model.Projects a
      ↔ s₂.model.Projects a ∧ ∃ v, Means s.model a { parameters := params } e₁ v := by
  obtain ⟨-, bounds, alike⟩ := setObjective_narrows ran₁ session.sound.2.2 first
  have later : ExactInput cfg False s₁.model { parameters := params } e₂ :=
    ⟨second.slack, bounds, second.names, second.tree, second.avoids⟩
  -- the replaced objective has declared nothing that the new tree refers to
  have meaning : ∀ v, Means s₁.model a { parameters := params } e₂ v
      ↔ Means s.model a { parameters := params } e₂ v := by
    intro v
    constructor
    · intro means
      exact means.transfer (P := fun family => ¬ cfg.IsAuxiliary family)
        (fun families plain family mem => ⟨((alike families plain) family mem).1.symm,
          fun index => ((alike families plain) family mem).2 index |>.symm⟩)
        (fun _ _ _ => rfl) second.avoids
    · intro means
      exact means.transfer (P := fun family => ¬ cfg.IsAuxiliary family) alike
        (fun _ _ _ => rfl) second.avoids
  rw [setObjective_projects (session.setObjective ran₁) ran₁₂ later,
    setObjective_projects session ran₁ first, setObjective_projects session ran₂ second]
  simp only [meaning]
  tauto

/-- **Replacing an objective.** The assignments of the declared variables that a replaced objective
leaves feasible are those of the new objective alone at which the tree of the replaced one has a
value. If no piecewise linear function of variables occurs in that tree, they are the same. -/
theorem replaced_objective_projects {s₁ s₂ s₁₂ : Store} {e₁ e₂ : Expr} {d₁ d₂ d₂' : Value}
    {o₁ o₂ o₁₂ : Objective} (session : Session cfg s)
    (first : ExactInput cfg False s.model { parameters := params } e₁)
    (second : ExactInput cfg False s.model { parameters := params } e₂)
    (ran₁ : (setObjective cfg params e₁ d₁ true).run s = (.ok o₁, s₁))
    (ran₁₂ : (setObjective cfg params e₂ d₂ true).run s₁ = (.ok o₁₂, s₁₂))
    (ran₂ : (setObjective cfg params e₂ d₂' true).run s = (.ok o₂, s₂)) (a : Assignment) :
    (s₁₂.model.Projects a
        ↔ s₂.model.Projects a ∧ ∃ v, Means s.model a { parameters := params } e₁ v)
      ∧ (e₁.Exact True → (s₁₂.model.Projects a ↔ s₂.model.Projects a)) := by
  have projects := setObjective_setObjective_projects session first second ran₁ ran₁₂ ran₂ a
  refine ⟨projects, fun plain => projects.trans (and_iff_left_of_imp fun isFeasible => ?_)⟩
  exact setObjective_value session ran₁
    ⟨first.slack, first.bounds, first.names, plain, first.avoids⟩
    ((setObjective_projects session ran₂ second a).mp isFeasible).1

/-! ## A replaced objective that cuts -/

def levelStore : Store := (define wholeSlack {} .none [level]).2

theorem levelStore_defined : define wholeSlack {} .none [level] = (.ok (), levelStore) := by
  obtain ⟨_, ran⟩ := exists_run_ok (x := applyStatements wholeSlack {} false [level])
    (s := { model := { name := .none } }) (by decide +kernel)
  exact ran

theorem levelStore_session : Session wholeSlack levelStore := (Session.start .none).block _ _ _

theorem level_input : ExactBlock wholeSlack {} [level] :=
  ⟨tank_input.slack, tank_input.names, fun stmt mem =>
    tank_input.statements stmt (by simp_all [tank])⟩

theorem zeros_projects_levelStore : levelStore.model.Projects zeros := by
  have holds := tank_holdsAt_zeros
  change BlockHoldsAt _ _ _ ([level] ++ [levelCap] ++ [.objective highWater _]) zeros at holds
  rw [blockHoldsAt_append, blockHoldsAt_append] at holds
  exact ((define_defined level_input levelStore_defined).faithful.projection zeros).mpr holds.1.1

/-- A tree that has a value only where the level lies between 1 and 2. -/
def midLevel : Expr :=
  .piecewise (.ref (.str "level") []) [.int 1, .int 2] [.int 1] [.int 0]

theorem exactInput_levelStore {plain : Prop} {e : Expr} (exact : e.Exact plain)
    (named : e.families = ["level"]) : ExactInput wholeSlack plain levelStore.model {} e where
  slack := ⟨1, rfl, le_refl 1⟩
  bounds := (define_defined level_input levelStore_defined).faithful.bounds
  names := ⟨by simp, by simp, Host.bare_keeps _⟩
  tree := exact
  avoids family mem := by
    rw [named, mem_singleton] at mem
    rw [mem]
    exact level_plain

theorem midLevel_input : ExactInput wholeSlack False levelStore.model {} midLevel :=
  exactInput_levelStore (by simp [midLevel, Expr.Exact]) (by decide +kernel)

theorem highWater_levelStore (plain : Prop) :
    ExactInput wholeSlack plain levelStore.model {} highWater :=
  exactInput_levelStore (highWater_input plain).tree (by decide +kernel)

/-- Both orders of setting objectives succeed: one after the other, and the second alone. -/
theorem levelStore_objectives : ∃ o₁ s₁ o₁₂ s₁₂ o₂ s₂,
    (setObjective wholeSlack {} midLevel (.str "min") true).run levelStore = (.ok o₁, s₁)
      ∧ (setObjective wholeSlack {} highWater (.str "min") true).run s₁ = (.ok o₁₂, s₁₂)
      ∧ (setObjective wholeSlack {} highWater (.str "min") true).run levelStore = (.ok o₂, s₂) := by
  obtain ⟨o₁₂, ran⟩ := exists_run_ok (s := levelStore) (x := do
    let _ ← setObjective wholeSlack {} midLevel (.str "min") true
    setObjective wholeSlack {} highWater (.str "min") true) (by decide +kernel)
  obtain ⟨o₁, s₁, ran₁, ran₁₂⟩ := run_bind_ok.mp ran
  obtain ⟨o₂, ran₂⟩ := exists_run_ok (s := levelStore)
    (x := setObjective wholeSlack {} highWater (.str "min") true) (by decide +kernel)
  exact ⟨o₁, s₁, o₁₂, _, o₂, _, ran₁, ran₁₂, ran₂⟩

theorem midLevel_no_value (v : ℚ) : ¬ Means levelStore.model zeros {} midLevel v := by
  intro means
  rw [midLevel, means_open_iff (by decide +kernel)] at means
  obtain ⟨x, means, g, mem, gives⟩ := means
  obtain ⟨key, -, rfl⟩ := means_ref_iff.mp means
  have low : g.low = 1 := by
    simp only [Segment.ofData, mem_singleton] at mem
    rw [mem]
    rfl
  have above : (1 : ℚ) ≤ 0 := low ▸ gives.low
  norm_num at above

/-- The feasible region depends on the objective that was replaced: with no level, the store that
was asked for the level between 1 and 2 before has no solution, the other has one. -/
theorem replaced_objective_cuts : ∃ o₁ s₁ o₁₂ s₁₂ o₂ s₂,
    (setObjective wholeSlack {} midLevel (.str "min") true).run levelStore = (.ok o₁, s₁)
      ∧ (setObjective wholeSlack {} highWater (.str "min") true).run s₁ = (.ok o₁₂, s₁₂)
      ∧ (setObjective wholeSlack {} highWater (.str "min") true).run levelStore = (.ok o₂, s₂)
      ∧ s₂.model.Projects zeros ∧ ¬ s₁₂.model.Projects zeros := by
  obtain ⟨o₁, s₁, o₁₂, s₁₂, o₂, s₂, ran₁, ran₁₂, ran₂⟩ := levelStore_objectives
  refine ⟨o₁, s₁, o₁₂, s₁₂, o₂, s₂, ran₁, ran₁₂, ran₂, ?_, fun holds => ?_⟩
  · rw [setObjective_projects levelStore_session ran₂ (highWater_levelStore False)]
    exact ⟨zeros_projects_levelStore, setObjective_value levelStore_session ran₂
      (highWater_levelStore True) zeros_projects_levelStore⟩
  · obtain ⟨-, v, means⟩ := (setObjective_setObjective_projects levelStore_session midLevel_input
      (highWater_levelStore False) ran₁ ran₁₂ ran₂ zeros).mp holds
    exact midLevel_no_value v means

theorem midLevel_replaced : ∃ o₁ s₁ o₁₂ s₁₂ o₂ s₂,
    (setObjective wholeSlack {} midLevel (.str "min") true).run levelStore = (.ok o₁, s₁)
      ∧ (setObjective wholeSlack {} highWater (.str "min") true).run s₁ = (.ok o₁₂, s₁₂)
      ∧ (setObjective wholeSlack {} highWater (.str "min") true).run levelStore = (.ok o₂, s₂)
      ∧ (s₁₂.model.Projects zeros
        ↔ s₂.model.Projects zeros ∧ ∃ v, Means levelStore.model zeros {} midLevel v) := by
  obtain ⟨o₁, s₁, o₁₂, s₁₂, o₂, s₂, ran₁, ran₁₂, ran₂⟩ := levelStore_objectives
  exact ⟨o₁, s₁, o₁₂, s₁₂, o₂, s₂, ran₁, ran₁₂, ran₂, (replaced_objective_projects
    levelStore_session midLevel_input (highWater_levelStore False) ran₁ ran₁₂ ran₂ zeros).1⟩

end Compilation

end LinearProgram
