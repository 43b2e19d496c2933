import LinearProgram.Proofs.Composed
import LinearProgram.Proofs.Keys

/-!
# Steps that can be taken back

Replaying what a step recorded, newest first, takes back whatever it did to the model (`Recorded`).
The removals search by equality, so the new entry has to be the first one they meet, which the
checks and the coherence of the indexes see to (`Model.Coherent`). A property that no single change
destroys is carried along every step (`Invariant`, `Keeps`).
-/

namespace LinearProgram

open List

variable {m : Model} {s s' : Store} {families : List (String × List (List Value))}

/-! ## One change -/

/-- Removing by a test gives back the list before an entry was appended, if the entry is the only
one that passes. -/
theorem eraseP_append_self {α : Type} {p : α → Bool} {l : List α} {a : α}
    (fresh : ∀ b ∈ l, p b = false) (hit : p a = true) : (l ++ [a]).eraseP p = l := by
  rw [eraseP_append_right]
  · simp [hit]
  · intro b mem
    simp [fresh b mem]

namespace Model

/-- What the indexes of a model say is so: no family is empty, its tuples belong to columns, and
every row is known under its name. -/
structure Coherent (m : Model) : Prop where
  inhabited : ∀ entry ∈ m.families, entry.2 ≠ []
  tuples : ∀ entry ∈ m.families, ∀ index ∈ entry.2, ∃ v ∈ m.columns, v.key = ⟨entry.1, index⟩
  rows : ∀ c ∈ m.constraints, (m.constraintNamed? c.name).isSome = true

theorem removeIndex_addIndex {family : String} {index : List Value}
    (self : Value.equalItems index index = true) (inhabited : ∀ entry ∈ families, entry.2 ≠ [])
    (fresh : ∀ entry ∈ families, entry.1 = family →
      ∀ tuple ∈ entry.2, Value.equalItems tuple index = false) :
    removeIndex family index (addIndex family index families) = families := by
  induction families with
  | nil => simp [addIndex, removeIndex, self]
  | cons entry _ ih =>
    by_cases same : entry.1 = family
    · have erased := eraseP_append_self (p := fun tuple => Value.equalItems tuple index)
        (fresh entry mem_cons_self same) self
      have nonempty := inhabited entry mem_cons_self
      simp only [addIndex, same, beq_self_eq_true, ↓reduceIte, removeIndex, erased]
      obtain ⟨name, tuples⟩ := entry
      cases tuples with
      | nil => exact absurd rfl nonempty
      | cons => simp_all
    · have tail := ih (fun e mem => inhabited e (mem_cons_of_mem _ mem))
        (fun e mem => fresh e (mem_cons_of_mem _ mem))
      simp [addIndex, removeIndex, same, tail]

/-- A family after a tuple was put in: an old one, or the tuple's own one with the tuple last. -/
theorem mem_addIndex {family : String} {index : List Value} {entry : String × List (List Value)}
    (mem : entry ∈ addIndex family index families) :
    entry ∈ families ∨ ∃ tuples, entry = (family, tuples ++ [index])
      ∧ (tuples = [] ∨ (family, tuples) ∈ families) := by
  induction families with
  | nil =>
    rw [addIndex, mem_singleton] at mem
    exact .inr ⟨[], mem, .inl rfl⟩
  | cons first _ ih =>
    by_cases same : first.1 = family
    · rw [addIndex, if_pos (by simp [same]), mem_cons] at mem
      rcases mem with here | later
      · refine .inr ⟨first.2, by rw [here, same], .inr ?_⟩
        rw [← same]
        exact mem_cons_self
      · exact .inl (mem_cons_of_mem _ later)
    · rw [addIndex, if_neg (by simp [same]), mem_cons] at mem
      rcases mem with here | later
      · exact .inl (here ▸ mem_cons_self)
      · rcases ih later with old | ⟨tuples, shape, origin⟩
        · exact .inl (mem_cons_of_mem _ old)
        · exact .inr ⟨tuples, shape, origin.imp id (mem_cons_of_mem _)⟩

theorem find_none_of_map {α : Type} {entries : List (String × α)} {name : String}
    (free : (entries.find? fun entry => entry.1 == name).map (·.2) = none) :
    ∀ entry ∈ entries, (entry.1 == name) = false := by
  rw [Option.map_eq_none_iff, find?_eq_none] at free
  intro entry mem
  exact Bool.eq_false_iff.mpr (free entry mem)

theorem Coherent.addVariable (coherent : m.Coherent) (v : Variable) :
    (m.addVariable v).Coherent where
  inhabited entry mem := by
    rcases mem_addIndex mem with old | ⟨tuples, rfl, -⟩
    · exact coherent.inhabited entry old
    · simp
  tuples entry mem index inside := by
    have widen : ∀ u, u ∈ m.columns → u ∈ (m.addVariable v).columns :=
      fun u known => mem_append_left _ known
    rcases mem_addIndex mem with old | ⟨tuples, rfl, origin⟩
    · obtain ⟨u, known, key⟩ := coherent.tuples entry old index inside
      exact ⟨u, widen u known, key⟩
    · rcases mem_append.mp inside with earlier | last
      · rcases origin with rfl | old
        · simp at earlier
        · obtain ⟨u, known, key⟩ := coherent.tuples _ old index earlier
          exact ⟨u, widen u known, key⟩
      · rw [mem_singleton.mp last]
        exact ⟨v, mem_append_right _ (mem_singleton.mpr rfl), rfl⟩
  rows := coherent.rows

theorem Coherent.addConstraint (coherent : m.Coherent) (c : Constraint) :
    (m.addConstraint c).Coherent where
  inhabited := coherent.inhabited
  tuples := coherent.tuples
  rows row mem := by
    rcases mem_append.mp mem with old | new
    · have known := coherent.rows row old
      simp only [constraintNamed?, Option.isSome_map] at known ⊢
      simp [Model.addConstraint, find?_append, known]
    · rw [mem_singleton.mp new]
      simp only [constraintNamed?, Option.isSome_map]
      simp [Model.addConstraint, find?_append]

theorem revert_addVariable {v : Variable} (coherent : m.Coherent) (legal : v.key.isKey = true)
    (fresh : m.declared? v.key = none) (free : m.variableNamed? v.name = none) :
    (m.addVariable v).revert (.variable_ v) = m := by
  have undeclared : ∀ u ∈ m.columns, u.key.equal v.key = false := fun u mem =>
    Bool.eq_false_iff.mpr (find?_eq_none.mp fresh u mem)
  have columns := eraseP_append_self (p := fun u : Variable => u.key.equal v.key) undeclared
    (VarKey.equal_self legal)
  have names := eraseP_append_self (p := fun entry : String × VarKey => entry.1 == v.name)
    (a := (v.name, v.key)) (find_none_of_map free) (beq_self_eq_true v.name)
  have families : removeIndex v.key.family v.key.index
      (addIndex v.key.family v.key.index m.families) = m.families := by
    refine removeIndex_addIndex (Value.equalItems_self legal) coherent.inhabited ?_
    -- a tuple of the family belongs to a column, and no column has the new key
    intro entry mem same tuple inside
    obtain ⟨u, known, key⟩ := coherent.tuples entry mem tuple inside
    have different := undeclared u known
    simpa [VarKey.equal, key, same] using different
  simp only [revert, removeVariable, addVariable, columns, names, families]

theorem revert_addConstraint {c : Constraint} (coherent : m.Coherent)
    (free : m.constraintNamed? c.name = none) : (m.addConstraint c).revert (.constraint c) = m := by
  have rows := eraseP_append_self (p := fun other : Constraint => other.name == c.name)
    (l := m.constraints) (a := c) (by
      intro row mem
      have known := coherent.rows row mem
      by_cases same : row.name = c.name
      · simp [same, free] at known
      · simp [same]) (beq_self_eq_true c.name)
  have names := eraseP_append_self (p := fun entry : String × String => entry.1 == c.name)
    (a := (c.name, c.rawName)) (find_none_of_map free) (beq_self_eq_true c.name)
  simp only [revert, removeConstraint, addConstraint, rows, names]

theorem revert_addDeclaration {signature : Value} (legal : signature.isKey = true)
    (fresh : m.declarations.any signature.same = false) :
    (m.addDeclaration signature).revert (.declaration signature) = m := by
  have declarations := eraseP_append_self (p := signature.same) (a := signature)
    (fun other mem => by simpa using any_eq_false.mp fresh other mem)
    (Value.same_self legal)
  simp only [revert, removeDeclaration, addDeclaration, declarations]

/-- Taking changes back and replacing the counters can be done in either order. -/
theorem foldl_revert_counters (undo : List Undo) (m : Model) (counters : List (String × Nat)) :
    undo.foldl revert { m with counters } = { undo.foldl revert m with counters } := by
  induction undo generalizing m with
  | nil => rfl
  | cons u _ ih =>
    have once : revert { m with counters } u = { revert m u with counters } := by
      cases u <;> rfl
    rw [foldl_cons, once, ih]
    rfl

end Model

/-! ## One step -/

/-- What a step may do to a store. Inside a transaction its records come on top of the earlier ones,
and replaying them takes the model back, the counters apart. A property of models is kept. -/
structure Recorded (I : Model → Prop) (s s' : Store) : Prop where
  coherent : s'.model.Coherent
  closed : s.transaction = none → s'.transaction = none
  opened : ∀ t, s.transaction = some t → ∃ new : List Undo,
    s'.transaction = some { t with undo := new ++ t.undo }
      ∧ ∀ counters, { new.foldl Model.revert s'.model with counters } = { s.model with counters }
  kept : I s.model → I s'.model

namespace Recorded

variable {I : Model → Prop}

theorem of_counters (coherent : s.model.Coherent)
    (model : ∃ counters, s'.model = { s.model with counters })
    (transaction : s'.transaction = s.transaction) (kept : I s.model → I s'.model) :
    Recorded I s s' := by
  obtain ⟨counters, model⟩ := model
  refine ⟨?_, fun closed => transaction.trans closed, ?_, kept⟩
  · rw [model]
    exact ⟨coherent.inhabited, coherent.tuples, coherent.rows⟩
  · intro t opened
    refine ⟨[], by rw [transaction, opened]; rfl, ?_⟩
    intro others
    simp only [foldl_nil, model]

theorem refl (coherent : s.model.Coherent) : Recorded I s s :=
  of_counters coherent ⟨s.model.counters, rfl⟩ rfl id

theorem trans {s'' : Store} (first : Recorded I s s') (second : Recorded I s' s'') :
    Recorded I s s'' := by
  refine ⟨second.coherent, fun closed => second.closed (first.closed closed), ?_,
    fun holds => second.kept (first.kept holds)⟩
  intro t opened
  obtain ⟨new, recorded, replayed⟩ := first.opened t opened
  obtain ⟨newer, recorded', replayed'⟩ := second.opened _ recorded
  refine ⟨newer ++ new, by rw [recorded', append_assoc], ?_⟩
  intro counters
  -- the newer records lead back to the middle, the older ones from there to the start
  rw [foldl_append, ← Model.foldl_revert_counters, replayed' counters,
    Model.foldl_revert_counters, replayed counters]

/-- A recorded change that its record takes back. -/
theorem changed {f : Model → Model} {undo : Undo} (coherent : (f s.model).Coherent)
    (inverse : (f s.model).revert undo = s.model) (kept : I s.model → I (f s.model)) :
    Recorded I s (s.changed f undo) := by
  refine ⟨coherent, fun closed => by simp [Store.changed, closed], ?_, kept⟩
  intro t opened
  refine ⟨[undo], by simp [Store.changed, opened], ?_⟩
  intro counters
  simp only [foldl_cons, foldl_nil, Store.changed, inverse]

theorem with_log (recorded : Recorded I s s') (log : List LogRecord) :
    Recorded I s { s' with log } :=
  ⟨recorded.coherent, recorded.closed, recorded.opened, recorded.kept⟩

theorem rollBack_model {after : Store} (recorded : Recorded I s.begun after) :
    (Assembly.rollBack after).model = s.model ∧ (Assembly.rollBack after).transaction = none := by
  obtain ⟨new, opened, replayed⟩ := recorded.opened _ rfl
  have back := replayed s.model.counters
  simp only [append_nil] at opened
  simp only [Assembly.rollBack, opened]
  exact ⟨back, trivial⟩

/-- A transaction that fails leaves the model it found, any other one the model it made. -/
theorem transaction {α : Type} {x : Assembly α} (coherent : s.model.Coherent)
    (step : ∀ t : Store, t.model = s.model → Recorded I t (x.run t).2) :
    Recorded I s ((Assembly.transaction x).run s).2 := by
  cases entry : s.transaction with
  | some =>
    rw [Assembly.run_transaction_inner entry]
    exact step s rfl
  | none =>
    have inner := step s.begun rfl
    rcases ran : x.run s.begun with ⟨e | a, after⟩
    · rw [ran] at inner
      rw [Assembly.run_transaction_rollBack entry ran]
      obtain ⟨model, closed⟩ := inner.rollBack_model
      refine ⟨?_, fun _ => closed, fun t opened => by simp [entry] at opened, ?_⟩
      · rw [model]
        exact coherent
      · rw [model]
        exact id
    · rw [ran] at inner
      rw [Assembly.run_transaction_commit entry ran]
      exact ⟨inner.coherent, fun _ => rfl, fun t opened => by simp [entry] at opened, inner.kept⟩

end Recorded

/-- A property of models that every change keeps, as long as only `allowed` columns are added. -/
structure Invariant (cfg : Config) (allowed : Variable → Prop) (I : Model → Prop) : Prop where
  counters : ∀ {m : Model} (counters : List (String × Nat)), I m → I { m with counters }
  column : ∀ {m : Model} {v : Variable}, I m → m.Accepts cfg v → allowed v →
    I (m.addVariable v)
  row : ∀ {m : Model} {c : Constraint}, I m → m.AcceptsRow cfg c → I (m.addConstraint c)
  declaration : ∀ {m : Model} (signature : Value), I m → I (m.addDeclaration signature)
  objective : ∀ {m : Model} (objective : Option Objective), I m → I { m with objective }

theorem invariant_true (cfg : Config) (allowed : Variable → Prop) :
    Invariant cfg allowed fun _ => True :=
  ⟨fun _ => id, fun _ _ _ => trivial, fun _ _ => trivial, fun _ => id, fun _ => id⟩

/-- A step whose records take it back from every coherent model, and that keeps a property of
models, whether it succeeds or fails. -/
def Keeps (I : Model → Prop) {α : Type} (x : Assembly α) : Prop :=
  ∀ s : Store, s.model.Coherent → Recorded I s (x.run s).2

namespace Keeps

open Assembly

variable {I : Model → Prop} {α β : Type} {x : Assembly α} {f : α → Assembly β}
  {result : Except Error α}

theorem of_unchanged (same : ∀ s, ∃ log, (x.run s).2 = { s with log }) : Keeps I x := by
  intro s coherent
  obtain ⟨log, unchanged⟩ := same s
  rw [unchanged]
  exact (Recorded.refl coherent).with_log log

theorem pure {a : α} : Keeps I (pure a : Assembly α) := of_unchanged fun s => ⟨s.log, rfl⟩

theorem lift : Keeps I (liftM result : Assembly α) :=
  of_unchanged fun s => ⟨s.log, rfl⟩

theorem throw {e : Error} : Keeps I (throw e : Assembly α) := of_unchanged fun s => ⟨s.log, rfl⟩

theorem refuse {cause : Cause} : Keeps I (refuse cause : Assembly α) := lift

theorem model : Keeps I model := of_unchanged fun s => ⟨s.log, rfl⟩

theorem report {records : List LogRecord} : Keeps I (report records) :=
  of_unchanged fun _ => ⟨_, rfl⟩

theorem bind (first : Keeps I x) (rest : ∀ a, Keeps I (f a)) : Keeps I (x >>= f) := by
  intro s coherent
  have before := first s coherent
  rw [run_bind]
  rcases outcome : x.run s with ⟨e | a, s'⟩
  · rw [outcome] at before
    exact before
  · rw [outcome] at before
    exact before.trans (rest a s' before.coherent)

/-- A step that starts by looking at the model. -/
theorem model_bind {f : Model → Assembly β}
    (rest : ∀ s : Store, s.model.Coherent → Recorded I s ((f s.model).run s).2) :
    Keeps I (Assembly.model >>= f) := by
  intro s coherent
  rw [run_bind]
  exact rest s coherent

/-- Only what follows a success needs a look. -/
theorem lift_bind (rest : ∀ a, result = .ok a → Keeps I (f a)) :
    Keeps I ((liftM result : Assembly α) >>= f) := by
  cases result with
  | error => exact of_unchanged fun s => ⟨s.log, by rw [run_bind, run_lift]⟩
  | ok a => exact rest a rfl

theorem refuse_bind {cause : Cause} (f : α → Assembly β) :
    Keeps I (Assembly.refuse cause >>= f) := of_unchanged fun s => ⟨s.log, rfl⟩

theorem attempt (step : Keeps I x) : Keeps I (attempt x) := step

theorem transaction (step : Keeps I x) : Keeps I (transaction x) := fun _ coherent =>
  Recorded.transaction coherent fun t same => step t (same ▸ coherent)

/-- What a step that succeeds leaves behind. -/
theorem ok (keeps : Keeps I x) {s s' : Store} {a : α} (ran : x.run s = (.ok a, s'))
    (coherent : s.model.Coherent) (holds : I s.model) : s'.model.Coherent ∧ I s'.model := by
  have recorded := keeps s coherent
  rw [ran] at recorded
  exact ⟨recorded.coherent, recorded.kept holds⟩

/-! ### The operations -/

section Operations

variable {cfg : Config} {allowed : Variable → Prop} (invariant : Invariant cfg allowed I)
  {name family kind lower upper desc signature : Value} {index : List Value}
  {lhs rhs : Polynomial} {rel : Relation} {auxiliary : Bool}
include invariant

theorem nextIndex {counter : String} : Keeps I (nextIndex counter) := by
  intro s coherent
  rw [run_nextIndex]
  exact Recorded.of_counters coherent ⟨_, rfl⟩ rfl (invariant.counters _)

theorem addVariable {key : VarKey} {kind : VariableKind} {lower upper : Option Number}
    (passes : ∀ v : Variable, v.key = key → v.kind = kind → v.lower = lower → v.upper = upper →
      allowed v) :
    Keeps I (addVariable cfg key kind lower upper desc auxiliary) := by
  intro s coherent
  rcases addVariable_cases cfg key kind lower upper desc auxiliary s with
    ⟨e, log, failed⟩ | ⟨name, log, added, accepted⟩
  · rw [failed]
    exact (Recorded.refl coherent).with_log log
  · rw [added]
    refine (Recorded.changed (coherent.addVariable _) ?_ fun holds => ?_).with_log log
    · exact Model.revert_addVariable coherent accepted.legal accepted.fresh accepted.free
    · exact invariant.column holds accepted (passes _ rfl rfl rfl rfl)

theorem nextConstraintId {fuel : Nat} : Keeps I (nextConstraintId fuel) := by
  intro s coherent
  obtain ⟨n, counters, ran, -⟩ := nextConstraintId_run fuel s
  rw [ran]
  exact Recorded.of_counters coherent ⟨counters, rfl⟩ rfl (invariant.counters counters)

theorem constraintName : Keeps I (constraintName name) := by
  unfold Assembly.constraintName
  split
  · exact model.bind fun m => nextConstraintId invariant
  · exact pure
  · exact lift

theorem storeConstraint :
    Keeps I (storeConstraint cfg name lhs rhs rel desc) := by
  refine transaction ((constraintName invariant).bind fun rawName => ?_)
  refine lift_bind fun limit limited => report.bind fun _ => ?_
  split
  case isTrue => exact refuse_bind _
  case isFalse unreserved =>
    refine model_bind fun s coherent => ?_
    split
    case h_1 other taken =>
      split
      · exact refuse s coherent
      · exact refuse s coherent
    case h_2 free =>
      simp only [run_bind, run_change, run_pure]
      refine Recorded.changed (coherent.addConstraint _)
        (Model.revert_addConstraint coherent free) fun holds => invariant.row holds ?_
      exact ⟨⟨limit, limited, rfl⟩, by simpa using unreserved, free⟩

theorem registerDeclaration {label : String} : Keeps I (registerDeclaration signature label) := by
  refine transaction ?_
  split
  case isTrue => exact lift_bind fun _ ok => absurd ok (breakDown_ne_ok _ _)
  case isFalse legal =>
    refine model_bind fun s coherent => ?_
    split
    case isTrue => exact refuse_bind _ s coherent
    case isFalse fresh =>
      have recorded : Recorded I s
          (s.changed (·.addDeclaration signature) (.declaration signature)) :=
        Recorded.changed ⟨coherent.inhabited, coherent.tuples, coherent.rows⟩
          (Model.revert_addDeclaration (by simpa using legal) (by simpa using fresh))
          (invariant.declaration signature)
      exact recorded

theorem setObjective {objective : Objective} {replace : Bool} :
    Keeps I (setObjective objective replace) := by
  refine transaction (model_bind fun s coherent => ?_)
  have set : Recorded I s (s.changed (fun m => { m with objective := some objective })
      (.objective s.model.objective)) :=
    Recorded.changed ⟨coherent.inhabited, coherent.tuples, coherent.rows⟩ rfl
      (invariant.objective (some objective))
  cases known : s.model.objective with
  | none =>
    rw [known] at set
    exact set
  | some =>
    rw [known] at set
    cases replace with
    | false => exact refuse_bind _ s coherent
    | true => exact set.with_log _

theorem of_composed (step : Operates cfg allowed x) :
    Keeps I x := by
  induction step with
  | pure => exact pure
  | lift => exact lift
  | model => exact model
  | report => exact report
  | atom isAtom =>
    cases isAtom with
    | nextIndex => exact nextIndex invariant
    | addVariable passes => exact addVariable invariant passes
    | storeConstraint => exact storeConstraint invariant
    | registerDeclaration => exact registerDeclaration invariant
    | setObjective => exact setObjective invariant
  | bind _ _ first rest => exact first.bind rest
  | transaction _ step => exact step.transaction

theorem addConstraint :
    Keeps I (addConstraint cfg name lhs rel rhs desc) :=
  of_composed invariant (.addConstraint (fun _ _ => trivial) (.atom .storeConstraint))

end Operations

end Keeps

end LinearProgram
