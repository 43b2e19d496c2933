import LinearProgram.Compilation.Statement

/-!
# Running assembly steps

How each building block of a step acts on a store. A step that succeeds is taken apart with
`run_bind_ok`, one `obtain` for each line of its `do` block; `addVariable_cases` and
`addConstraint_cases` say what the two operations did that add to a model.
-/

namespace LinearProgram

variable {α : Type}

@[simp] theorem raise_ne_ok (cause : Cause) (a : α) : (raise cause : Except Error α) ≠ .ok a := by
  simp [raise]

@[simp] theorem breakDown_ne_ok (breakdown : Breakdown) (a : α) :
    (breakDown breakdown : Except Error α) ≠ .ok a := by
  simp [breakDown]

theorem bind_eq_ok {ε β : Type} {x : Except ε α} {f : α → Except ε β} {b : β} :
    (x >>= f) = .ok b ↔ ∃ a, x = .ok a ∧ f a = .ok b := by
  cases x with
  | error | ok => simp [bind, Except.bind]

theorem VarKey.family_of_equal {key key' : VarKey} (same : key.equal key' = true) :
    key.family = key'.family := by
  simp only [VarKey.equal, Bool.and_eq_true, beq_iff_eq] at same
  exact same.1

theorem ok_of_toOption {x : Except Error α} {a : α} (found : x.toOption = some a) : x = .ok a := by
  cases x with
  | error => cases found
  | ok => exact congrArg Except.ok (Option.some.inj found)

theorem orOverflow_eq_ok {x : Option α} {a : α} : orOverflow x = .ok a ↔ x = some a := by
  cases x <;> simp [orOverflow]

end LinearProgram

namespace LinearProgram.Assembly

variable {α β : Type} {s s' : Store} {a : α} {result : Except Error α} {f : α → Assembly β}

@[simp] theorem run_pure (a : α) (s : Store) : (pure a : Assembly α).run s = (.ok a, s) := rfl

theorem run_bind (x : Assembly α) (f : α → Assembly β) (s : Store) :
    (x >>= f).run s =
      match x.run s with
      | (.ok a, s') => (f a).run s'
      | (.error e, s') => (.error e, s') := by
  show (ExceptT.bindCont f (x.run s).1) (x.run s).2 = _
  rcases x.run s with ⟨_ | _, _⟩ <;> rfl

/-- A sequence succeeds when both of its parts do, the second from where the first ended. -/
theorem run_bind_ok {x : Assembly α} {s'' : Store} {b : β} :
    (x >>= f).run s = (.ok b, s'')
      ↔ ∃ a s', x.run s = (.ok a, s') ∧ (f a).run s' = (.ok b, s'') := by
  rw [run_bind]
  constructor
  · intro ran
    split at ran
    case h_1 a s' first => exact ⟨a, s', first, ran⟩
    case h_2 e s' first => cases ran
  · rintro ⟨a, s', first, second⟩
    rw [first]
    exact second

@[simp] theorem run_lift (result : Except Error α) (s : Store) :
    (liftM result : Assembly α).run s = (result, s) := rfl

theorem run_lift_ok :
    (liftM result : Assembly α).run s = (.ok a, s') ↔ result = .ok a ∧ s = s' := by
  constructor
  · intro ran
    cases ran
    exact ⟨rfl, rfl⟩
  · rintro ⟨rfl, rfl⟩
    rfl

theorem run_lift_bind_ok {b : β} :
    ((liftM result : Assembly α) >>= f).run s = (.ok b, s')
      ↔ ∃ a, result = .ok a ∧ (f a).run s = (.ok b, s') := by
  rw [run_bind_ok]
  constructor
  · rintro ⟨a, _, lifted, ran⟩
    obtain ⟨found, rfl⟩ := run_lift_ok.mp lifted
    exact ⟨a, found, ran⟩
  · rintro ⟨a, rfl, ran⟩
    exact ⟨a, s, rfl, ran⟩

theorem run_pure_ok {b : α} (ran : (pure a : Assembly α).run s = (.ok b, s')) : a = b ∧ s = s' := by
  cases ran
  exact ⟨rfl, rfl⟩

theorem run_refuse_ne_ok {cause : Cause} : (refuse cause : Assembly α).run s ≠ (.ok a, s') := by
  intro ran
  cases ran

theorem exists_run_ok {x : Assembly α} (succeeds : (x.run s).1.toBool = true) :
    ∃ a, x.run s = (.ok a, (x.run s).2) := by
  rcases ran : x.run s with ⟨e | a, s'⟩
  · rw [ran] at succeeds
    cases succeeds
  · exact ⟨a, rfl⟩

@[simp] theorem run_model (s : Store) : (model : Assembly Model).run s = (.ok s.model, s) := rfl

@[simp] theorem run_report (records : List LogRecord) (s : Store) :
    (report records).run s = (.ok (), { s with log := records.reverse ++ s.log }) := rfl

end LinearProgram.Assembly

namespace LinearProgram

variable {cfg : Config} {s s' after : Store} {desc name : Value} {α : Type}
  {step : Assembly α}

/-- What is checked before a column is added: it fits its family, and its key and its LP name are
new. -/
structure Model.Accepts (cfg : Config) (m : Model) (v : Variable) : Prop where
  fits : Assembly.checkFamily m v.key v.kind = .ok ()
  legal : v.key.isKey = true
  fresh : m.declared? v.key = none
  named : ∃ limit, cfg.nameLimit = .ok limit ∧ v.name = Name.ofKey limit v.key
  free : m.variableNamed? v.name = none

/-- What is checked before a row is added: its LP name is new and not the objective's. -/
structure Model.AcceptsRow (cfg : Config) (m : Model) (c : Constraint) : Prop where
  named : ∃ limit, cfg.nameLimit = .ok limit ∧ c.name = Name.sanitize limit c.rawName
  unreserved : c.name ≠ Objective.label
  free : m.constraintNamed? c.name = none

/-- The store after a recorded change. -/
def Store.changed (s : Store) (f : Model → Model) (undo : Undo) : Store :=
  { s with
    model := f s.model
    transaction := s.transaction.map fun t => { t with undo := undo :: t.undo } }

/-- A store at the start of a transaction. -/
abbrev Store.begun (s : Store) : Store :=
  { s with transaction := some { counters := s.model.counters } }

namespace Assembly

@[simp] theorem run_change (f : Model → Model) (undo : Undo) (s : Store) :
    (change f undo).run s = (.ok (), s.changed f undo) := rfl

theorem run_nextIndex (counter : String) (s : Store) :
    (nextIndex counter).run s =
      (.ok (s.model.counter counter + 1),
        { s with
          model := { s.model with
            counters :=
              Model.setCounter counter (s.model.counter counter + 1) s.model.counters } }) := rfl

/-- A column is declared with a fresh key and a fresh name, or nothing but the log changes. -/
theorem addVariable_cases (cfg : Config) (key : VarKey) (kind : VariableKind)
    (lower upper : Option Number) (desc : Value) (auxiliary : Bool) (s : Store) :
    (∃ e log, (addVariable cfg key kind lower upper desc auxiliary).run s
        = (.error e, { s with log }))
      ∨ ∃ name log,
          let v : Variable := { key, kind, lower, upper, name, description := desc, auxiliary }
          (addVariable cfg key kind lower upper desc auxiliary).run s
              = (.ok v, { s.changed (·.addVariable v) (.variable_ v) with log })
            ∧ s.model.Accepts cfg v := by
  unfold addVariable
  simp only [run_bind, run_model, run_lift]
  cases fits : checkFamily s.model key kind with
  | error e => exact .inl ⟨e, s.log, rfl⟩
  | ok =>
    cases legal : key.isKey with
    | false => exact .inl ⟨_, s.log, rfl⟩
    | true =>
      cases known : s.model.declared? key with
      | some => exact .inl ⟨_, s.log, rfl⟩
      | none =>
        simp only [run_bind, run_lift, Bool.not_true, Bool.false_eq_true, ↓reduceIte,
          Option.isSome_none]
        cases limited : cfg.nameLimit with
        | error e => exact .inl ⟨e, s.log, rfl⟩
        | ok limit =>
          simp only [run_report]
          cases free : s.model.variableNamed? (Name.ofKey limit key) with
          | some => exact .inl ⟨_, _, rfl⟩
          | none =>
            refine .inr ⟨Name.ofKey limit key, ?_⟩
            cases auxiliary with
            | true | false => exact ⟨_, rfl, fits, legal, known, ⟨limit, limited, rfl⟩, free⟩

/-- Inside an open transaction, another one is no more than its step. -/
theorem run_transaction_inner {t : Transaction} (opened : s.transaction = some t) :
    (transaction step).run s = step.run s := by
  simp only [transaction, ExceptT.run_mk, opened]

theorem run_transaction_commit {a : α} (closed : s.transaction = none)
    (ran : step.run s.begun = (.ok a, after)) :
    (transaction step).run s = (.ok a, { after with transaction := none }) := by
  simp only [transaction, ExceptT.run_mk, closed, ran]

theorem run_transaction_rollBack {e : Error} (closed : s.transaction = none)
    (ran : step.run s.begun = (.error e, after)) :
    (transaction step).run s = (.error e, rollBack after) := by
  simp only [transaction, ExceptT.run_mk, closed, ran]

/-- A transaction ends as its step does. -/
theorem run_transaction_result (step : Assembly α) (s : Store) :
    ∃ before : Store, before.model = s.model
      ∧ ((transaction step).run s).1 = (step.run before).1 := by
  cases entry : s.transaction with
  | some => exact ⟨s, rfl, by rw [run_transaction_inner entry]⟩
  | none =>
    refine ⟨s.begun, rfl, ?_⟩
    rcases inner : step.run s.begun with ⟨e | a, after⟩
    · rw [run_transaction_rollBack entry inner]
    · rw [run_transaction_commit entry inner]

/-- A step that succeeds inside a transaction of its own did what it does outside of one. -/
theorem run_transaction_ok {a : α} (ran : (transaction step).run s = (.ok a, s')) :
    ∃ before after, before.model = s.model ∧ step.run before = (.ok a, after)
      ∧ s'.model = after.model := by
  cases entry : s.transaction with
  | some =>
    rw [run_transaction_inner entry] at ran
    exact ⟨s, s', rfl, ran, rfl⟩
  | none =>
    rcases inner : step.run s.begun with ⟨e | b, after⟩
    · rw [run_transaction_rollBack entry inner] at ran
      cases ran
    · rw [run_transaction_commit entry inner] at ran
      cases ran
      exact ⟨s.begun, after, rfl, inner,
        rfl⟩

/-- A step that fails inside a transaction of its own fails outside of one. If it got no further
than the log, the model is as it was. -/
theorem run_transaction_error {e : Error} (ran : (transaction step).run s = (.error e, s')) :
    ∃ before after, before.model = s.model ∧ step.run before = (.error e, after)
      ∧ ((∃ log, after = { before with log }) → s'.model = s.model) := by
  cases entry : s.transaction with
  | some =>
    rw [run_transaction_inner entry] at ran
    refine ⟨s, s', rfl, ran, ?_⟩
    rintro ⟨log, rfl⟩
    rfl
  | none =>
    rcases inner : step.run s.begun with ⟨e' | b, after⟩
    · rw [run_transaction_rollBack entry inner] at ran
      cases ran
      refine ⟨s.begun, after, rfl, inner,
        ?_⟩
      rintro ⟨log, rfl⟩
      rfl
    · rw [run_transaction_commit entry inner] at ran
      cases ran

theorem counter_setCounter (m : Model) (name other : String) (value : Nat) :
    ({ m with counters := Model.setCounter name value m.counters } : Model).counter other
      = if other = name then value else m.counter other := by
  obtain ⟨_, _, _, _, _, _, _, counters, _⟩ := m
  simp only [Model.counter]
  induction counters with
  | nil =>
    by_cases same : other = name
    · simp [Model.setCounter, same]
    · simp [Model.setCounter, same, Ne.symm same]
  | cons entry _ ih =>
    by_cases here : entry.1 = name
    · by_cases same : other = name
      · simp [Model.setCounter, here, same]
      · simp [Model.setCounter, here, same, Ne.symm same]
    · by_cases found : entry.1 = other
      · have different : other ≠ name := fun same => here (found.trans same)
        simp [Model.setCounter, found, different]
      · simpa [Model.setCounter, here, found] using ih

theorem counter_le_setCounter (m : Model) (name other : String) :
    m.counter other ≤ ({ m with
      counters := Model.setCounter name (m.counter name + 1) m.counters } : Model).counter
        other := by
  rw [counter_setCounter]
  split
  case isTrue same =>
    rw [same]
    exact Nat.le_succ _
  case isFalse => exact Nat.le_refl _

/-- Naming a constraint touches nothing but the counters, and these only go up. -/
theorem nextConstraintId_run (fuel : Nat) (s : Store) :
    ∃ n counters, (nextConstraintId fuel).run s
        = (.ok (constraintId n), { s with model := { s.model with counters } })
      ∧ ∀ f, s.model.counter f ≤ ({ s.model with counters } : Model).counter f := by
  induction fuel generalizing s with
  | zero => exact ⟨_, _, rfl, counter_le_setCounter s.model "constraint"⟩
  | succ _ ih =>
    unfold nextConstraintId
    simp only [run_bind, run_nextIndex, run_model]
    split
    · obtain ⟨n, counters, ran, larger⟩ := ih { s with model := { s.model with
        counters := Model.setCounter "constraint" (s.model.counter "constraint" + 1)
          s.model.counters } }
      exact ⟨n, counters, ran,
        fun f => Nat.le_trans (counter_le_setCounter s.model "constraint" f) (larger f)⟩
    · exact ⟨_, _, rfl, counter_le_setCounter s.model "constraint"⟩

/-- A row is named by the given text, or by the next automatic name. -/
theorem constraintName_ok {rawName : String}
    (ran : (constraintName name).run s = (.ok rawName, s')) :
    (name = .str rawName ∨ name = .none ∧ ∃ n, rawName = constraintId n)
      ∧ ∃ counters, s' = { s with model := { s.model with counters } }
        ∧ ∀ f, s.model.counter f ≤ ({ s.model with counters } : Model).counter f := by
  cases name with
  | none =>
    obtain ⟨n, counters, ran', larger⟩ :=
      nextConstraintId_run (s.model.constraintNames.length + 1) s
    have same := ran.symm.trans ran'
    cases same
    exact ⟨.inr ⟨rfl, n, rfl⟩, counters, rfl, larger⟩
  | str =>
    cases ran
    exact ⟨.inl rfl, s.model.counters, rfl, fun _ => Nat.le_refl _⟩
  | _ => cases ran

/-- What storing a row did: the model `m` accepted the row `c`, which has the two sides, the
relation and the description it was given, and `m'` has it last. -/
structure Stored (cfg : Config) (name : Value) (lhs rhs : Polynomial) (rel : Relation)
    (desc : Value) (m : Model) (c : Constraint) (m' : Model) : Prop where
  lhs : c.lhs = lhs
  rhs : c.rhs = rhs
  relation : c.relation = rel
  description : c.description = desc
  rawName : name = .str c.rawName ∨ name = .none ∧ ∃ n, c.rawName = constraintId n
  accepted : m.AcceptsRow cfg c
  model : ∃ counters, m' = { m.addConstraint c with counters }
  counters : ∀ f, m.counter f ≤ m'.counter f

theorem storeConstraint_ok {lhs rhs : Polynomial} {rel : Relation} {c : Constraint}
    (ran : (storeConstraint cfg name lhs rhs rel desc).run s = (.ok c, s')) :
    Stored cfg name lhs rhs rel desc s.model c s'.model := by
  obtain ⟨before, after, entry, inner, exit⟩ := run_transaction_ok ran
  obtain ⟨rawName, s₁, named, inner⟩ := run_bind_ok.mp inner
  obtain ⟨origin, counters, rfl, larger⟩ := constraintName_ok named
  obtain ⟨limit, isLimit, inner⟩ := run_lift_bind_ok.mp inner
  obtain ⟨_, s₃, reported, inner⟩ := run_bind_ok.mp inner
  cases reported
  split at inner
  case isTrue reserved =>
    obtain ⟨_, _, refused, -⟩ := run_bind_ok.mp inner
    exact absurd refused run_refuse_ne_ok
  case isFalse unreserved =>
    obtain ⟨m, s₄, read, inner⟩ := run_bind_ok.mp inner
    cases read
    split at inner
    case h_1 other taken =>
      split at inner <;> exact absurd inner run_refuse_ne_ok
    case h_2 free =>
      cases inner
      rw [exit, ← entry]
      exact ⟨rfl, rfl, rfl, rfl, origin,
        ⟨⟨limit, isLimit, rfl⟩, by simpa using unreserved, free⟩, ⟨counters, rfl⟩, larger⟩

/-- A row without variables is judged, any other one is stored. -/
theorem addConstraint_cases {lhs rhs : Polynomial} {rel : Relation} {r : Option Constraint}
    (ran : (addConstraint cfg name lhs rel rhs desc).run s = (.ok r, s')) :
    ∃ difference, lhs.sub rhs = .ok difference
      ∧ ((difference.isConstant = true ∧ rel.holds difference.constant = true
          ∧ s'.model = s.model)
        ∨ difference.isConstant = false
          ∧ ∃ c, Stored cfg name lhs rhs rel desc s.model c s'.model) := by
  obtain ⟨difference, minus, ran⟩ := run_lift_bind_ok.mp ran
  refine ⟨difference, minus, ?_⟩
  split at ran
  case isTrue constant =>
    split at ran
    case isTrue holds =>
      cases ran
      exact .inl ⟨constant, holds, rfl⟩
    case isFalse => exact absurd ran run_refuse_ne_ok
  case isFalse nonconstant =>
    obtain ⟨c, s₂, stored, ran⟩ := run_bind_ok.mp ran
    cases ran
    exact .inr ⟨by simpa using nonconstant, c, storeConstraint_ok stored⟩

theorem addVariable_ok {key : VarKey} {kind : VariableKind} {lower upper : Option Number}
    {auxiliary : Bool} {v : Variable}
    (ran : (addVariable cfg key kind lower upper desc auxiliary).run s = (.ok v, s')) :
    (∃ name, v = { key, kind, lower, upper, name, description := desc, auxiliary })
      ∧ s.model.Accepts cfg v ∧ s'.model = s.model.addVariable v := by
  rcases addVariable_cases cfg key kind lower upper desc auxiliary s with
    ⟨e, log, failed⟩ | ⟨name, log, added, accepted⟩
  · have same := ran.symm.trans failed
    cases same
  · have same := ran.symm.trans added
    cases same
    exact ⟨⟨name, rfl⟩, accepted, rfl⟩

/-- A declared variable is what the statement's kind and bounds say. -/
theorem declareVariable_ok {family : Value} {index : List Value} {kind lower upper : Value}
    {auxiliary : Bool} {v : Variable}
    (ran : (declareVariable cfg family index kind lower upper desc auxiliary).run s
      = (.ok v, s')) :
    v.key = ⟨family.text, index⟩ ∧ VariableKind.ofValue kind = .ok v.kind
      ∧ Bound.ofValue lower = .ok v.lower ∧ Bound.ofValue upper = .ok v.upper
      ∧ Bound.check v.key.text v.kind v.lower v.upper = .ok ()
      ∧ v.auxiliary = auxiliary ∧ s'.model = s.model.addVariable v := by
  obtain ⟨before, after, entry, inner, exit⟩ := run_transaction_ok ran
  obtain ⟨kind', isKind, inner⟩ := run_lift_bind_ok.mp inner
  obtain ⟨lower', isLower, inner⟩ := run_lift_bind_ok.mp inner
  obtain ⟨upper', isUpper, inner⟩ := run_lift_bind_ok.mp inner
  obtain ⟨_, fits, inner⟩ := run_lift_bind_ok.mp inner
  cases family with
  | str =>
    obtain ⟨⟨name, rfl⟩, -, model⟩ := addVariable_ok inner
    exact ⟨rfl, isKind, isLower, isUpper, fits, rfl, by rw [exit, model, entry]⟩
  | _ => cases inner

/-- Registering a statement touches nothing but the registered statements. -/
theorem registerDeclaration_ok {signature : Value} {label : String} {u : Unit}
    (ran : (registerDeclaration signature label).run s = (.ok u, s')) :
    s'.model = s.model.addDeclaration signature := by
  obtain ⟨before, after, entry, inner, exit⟩ := run_transaction_ok ran
  split at inner
  · cases inner
  · obtain ⟨m, s₁, read, inner⟩ := run_bind_ok.mp inner
    cases read
    split at inner
    · cases inner
    · cases inner
      rw [exit, ← entry]

/-- Setting an objective touches nothing else. Without leave to replace one, there was none. -/
theorem setObjective_ok {objective result : Objective} {replace : Bool}
    (ran : (setObjective objective replace).run s = (.ok result, s')) :
    (replace = false → s.model.objective = none)
      ∧ s'.model = { s.model with objective := some objective } := by
  obtain ⟨before, after, entry, inner, exit⟩ := run_transaction_ok ran
  obtain ⟨m, s₁, read, inner⟩ := run_bind_ok.mp inner
  cases read
  rw [exit, ← entry]
  dsimp only at inner
  split at inner
  case h_1 old known =>
    cases replace with
    | false => cases inner
    | true =>
      cases inner
      exact ⟨nofun, rfl⟩
  case h_2 absent =>
    cases inner
    exact ⟨fun _ => absent, rfl⟩

end Assembly

end LinearProgram
