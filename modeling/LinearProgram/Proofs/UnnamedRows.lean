import LinearProgram.Proofs.Names
import LinearProgram.Proofs.Registry
import LinearProgram.Proofs.SolutionSets

/-!
# Constraints without a name

A constraint without a name gets the first of `c00000000` and so on that no row has
(`Model.exists_isNextFree`). The name is cut after the search, and what is left of it may be the
name of a row (`cut_name_refused`).
-/

namespace LinearProgram

open List

variable {n : Nat}

/-! ## Automatic names -/

namespace Assembly

theorem toList_constraintId (n : Nat) :
    (constraintId n).toList
      = 'c' :: (List.replicate (8 - (Decimal.digitText n).length) '0' ++ Nat.toDigits 10 n) := by
  simp [constraintId, FloatLayout.zeros, Decimal.toList_digitText]

/-- Leading zeros do not make two numbers one name. -/
theorem constraintId_inj {m : Nat} (same : constraintId m = constraintId n) : m = n := by
  have value : ∀ k, Nat.ofDigitChars 10 (constraintId k).toList.tail 0 = k := by
    intro k
    rw [toList_constraintId, tail_cons, Nat.ofDigitChars_append,
      Nat.ofDigitChars_replicate_zero, Nat.mul_zero, Nat.ofDigitChars_ten_toDigits]
  rw [← value m, same, value n]

theorem isLegal_of_mem_constraintId {c : Char} (mem : c ∈ (constraintId n).toList) :
    Name.isLegal c = true := by
  rw [toList_constraintId, mem_cons, mem_append] at mem
  rcases mem with rfl | zero | digit
  · decide
  · rw [eq_of_mem_replicate zero]
    decide
  · rw [← Decimal.toList_digitText] at digit
    exact Name.isLegal_of_isLegalInIndex
      (Name.isLegalInIndex_of_isDigit (Decimal.isDigit_of_mem digit))

/-- The first hundred million automatic names have nine characters. -/
theorem length_constraintId (small : n < 10 ^ 8) : (constraintId n).length = 9 := by
  have digits : (Nat.toDigits 10 n).length ≤ 8 :=
    (Nat.length_toDigits_le_iff (by decide) (by decide)).mpr small
  have text : (Decimal.digitText n).length = (Nat.toDigits 10 n).length := by
    rw [← String.length_toList, Decimal.toList_digitText]
  rw [← String.length_toList, toList_constraintId, text]
  simp only [length_cons, length_append, length_replicate]
  omega

/-- An automatic name is a legal one, so it is changed only by being cut. -/
theorem toList_sanitize_constraintId (limit : Int) (n : Nat) :
    (Name.sanitize limit (constraintId n)).toList = Name.cut limit (constraintId n).toList := by
  rw [Name.sanitize, Name.sanitizeChars, String.toList_ofList,
    Name.mask_eq_self fun c => isLegal_of_mem_constraintId]
  have plain : Name.looksNumeric (constraintId n).toList = false := by
    rw [toList_constraintId]
    rfl
  have nonempty : (constraintId n).toList.isEmpty = false := by
    rw [toList_constraintId]
    rfl
  rw [plain, nonempty]
  rfl

theorem sanitize_constraintId_ne_label (limit : Int) (n : Nat) :
    Name.sanitize limit (constraintId n) ≠ Objective.label := by
  intro same
  have initial : Objective.label.toList <+: (constraintId n).toList := by
    rw [← same, toList_sanitize_constraintId]
    exact Name.cut_isPrefix limit _
  rw [toList_constraintId] at initial
  exact absurd (cons_prefix_cons.mp initial).1 (by decide)

theorem sanitize_constraintId_eq_self {limit : Int}
    (fits : ((constraintId n).length : Int) ≤ limit) :
    Name.sanitize limit (constraintId n) = constraintId n := by
  rw [← String.toList_inj, toList_sanitize_constraintId]
  exact Name.cut_eq_self (by rwa [String.length_toList])

end Assembly

/-! ## The search for a free name -/

/-- The number of the next automatic name: the first one from the counter on whose name no row has
taken. -/
structure Model.IsNextFree (m : Model) (n : Nat) : Prop where
  counted : m.counter "constraint" ≤ n
  free : m.constraintNamed? (Assembly.constraintId n) = none
  taken : ∀ k, m.counter "constraint" ≤ k → k < n →
    (m.constraintNamed? (Assembly.constraintId k)).isSome = true

theorem Model.constraintNamed?_isSome {m : Model} {name : String} :
    (m.constraintNamed? name).isSome = true ↔ name ∈ m.constraintNames.map (·.1) := by
  simp [constraintNamed?]

/-- Of more automatic names than there are names, one is free. -/
theorem Model.exists_free (m : Model) (start : Nat) :
    ∃ k ≤ m.constraintNames.length,
      m.constraintNamed? (Assembly.constraintId (start + k)) = none := by
  by_contra allTaken
  have names : ((List.range (m.constraintNames.length + 1)).map fun k =>
      Assembly.constraintId (start + k)) ⊆ m.constraintNames.map (·.1) := by
    intro name mem
    obtain ⟨k, inside, rfl⟩ := mem_map.mp mem
    rw [← constraintNamed?_isSome, Option.isSome_iff_ne_none]
    intro free
    exact allTaken ⟨k, Nat.lt_succ_iff.mp (mem_range.mp inside), free⟩
  have once : ((List.range (m.constraintNames.length + 1)).map fun k =>
      Assembly.constraintId (start + k)).Nodup := by
    refine nodup_range.map ?_
    intro j k same
    exact Nat.add_left_cancel (Assembly.constraintId_inj same)
  have fewer := (once.subperm names).length_le
  simp only [length_map, length_range] at fewer
  omega

/-- There is always a next free name. -/
theorem Model.exists_isNextFree (m : Model) :
    ∃ n, m.IsNextFree n ∧ n ≤ m.counter "constraint" + m.constraintNames.length := by
  classical
  have some : ∃ k, m.constraintNamed? (Assembly.constraintId (m.counter "constraint" + k)) = none :=
    (m.exists_free _).imp fun k found => found.2
  refine ⟨m.counter "constraint" + Nat.find some,
    ⟨Nat.le_add_right _ _, Nat.find_spec some, ?_⟩, ?_⟩
  · intro k counted before
    obtain ⟨j, rfl⟩ := Nat.exists_eq_add_of_le counted
    rw [Option.isSome_iff_ne_none]
    exact Nat.find_min some (Nat.lt_of_add_lt_add_left before)
  · obtain ⟨k, few, free⟩ := m.exists_free (m.counter "constraint")
    exact Nat.add_le_add_left ((Nat.find_min' some free).trans few) _

namespace Assembly

/-- The store after a number was drawn for an automatic name. -/
def drawn (s : Store) : Store :=
  { s with
    model :=
      { s.model with
        counters := Model.setCounter "constraint" (s.model.counter "constraint" + 1)
          s.model.counters } }

theorem counter_drawn (s : Store) :
    (drawn s).model.counter "constraint" = s.model.counter "constraint" + 1 := by
  rw [drawn, counter_setCounter, if_pos rfl]

/-- One step of the search: the next number is drawn, and taken unless its name is. -/
theorem run_nextConstraintId_succ (fuel : Nat) (s : Store) :
    (nextConstraintId (fuel + 1)).run s
      = if (s.model.constraintNamed? (constraintId (s.model.counter "constraint"))).isSome
        then (nextConstraintId fuel).run (drawn s)
        else (.ok (constraintId (s.model.counter "constraint")), drawn s) := by
  rw [nextConstraintId]
  simp only [run_bind, run_nextIndex, run_model, Nat.add_sub_cancel]
  change ExceptT.run
    (if (s.model.constraintNamed? (constraintId (s.model.counter "constraint"))).isSome = true
      then nextConstraintId fuel else pure (constraintId (s.model.counter "constraint")))
    (drawn s) = _
  split <;> rfl

/-- The search finds the next free name, and touches nothing but the counters. -/
theorem nextConstraintId_isNextFree {fuel : Nat} (next : s.model.IsNextFree n)
    (enough : n ≤ s.model.counter "constraint" + fuel) :
    ∃ counters, (nextConstraintId fuel).run s
      = (.ok (constraintId n), { s with model := { s.model with counters } }) := by
  induction fuel generalizing s with
  | zero =>
    have here : n = s.model.counter "constraint" := Nat.le_antisymm enough next.counted
    rw [here]
    exact ⟨_, rfl⟩
  | succ _ ih =>
    rw [run_nextConstraintId_succ]
    rcases Nat.eq_or_lt_of_le next.counted with here | later
    · rw [here, next.free]
      exact ⟨_, rfl⟩
    · -- the name is taken, and from the next number on the free one is the same
      rw [if_pos (next.taken _ (Nat.le_refl _) later)]
      refine ih ⟨?_, next.free, ?_⟩ ?_
      · rw [counter_drawn]
        exact later
      · intro k above below
        rw [counter_drawn] at above
        exact next.taken k (Nat.le_of_succ_le above) below
      · rw [counter_drawn]
        omega

theorem constraintName_none (next : s.model.IsNextFree n)
    (near : n ≤ s.model.counter "constraint" + s.model.constraintNames.length) :
    ∃ counters, (constraintName .none).run s
      = (.ok (constraintId n), { s with model := { s.model with counters } }) :=
  nextConstraintId_isNextFree next (Nat.le_succ_of_le near)

/-! ## Storing -/

/-- The row of an unnamed constraint that gets the `n`-th automatic name. -/
def unnamedRow (limit : Int) (n : Nat) (lhs : Polynomial) (rel : Relation) (rhs : Polynomial)
    (desc : Value) : Constraint where
  name := Name.sanitize limit (constraintId n)
  rawName := constraintId n
  lhs := lhs
  relation := rel
  rhs := rhs
  description := desc

/-- How storing a row ends: the row comes last if its name is free, and otherwise no row is stored,
for a reason of naming. -/
def StoresIfFree (m : Model) (c : Constraint) : Except Error Constraint × Store → Prop
  | (.ok stored, after) => m.constraintNamed? c.name = none
    ∧ stored = c ∧ after.model.constraints = m.constraints ++ [c]
  | (.error e, after) => (m.constraintNamed? c.name).isSome = true
    ∧ (∃ cause, e = .refused cause ∧ cause.kind = .duplicateName)
    ∧ after.model.constraints = m.constraints

variable {cfg : Config} {limit : Int} {lhs rhs : Polynomial} {rel : Relation}
  {desc : Value} {s : Store} {n : Nat}

/-- Storing inside an open transaction. If it fails, nothing is recorded there. -/
theorem storeConstraint_opened {t : Transaction} (limited : cfg.nameLimit = .ok limit)
    (opened : s.transaction = some t) (next : s.model.IsNextFree n)
    (near : n ≤ s.model.counter "constraint" + s.model.constraintNames.length)
    {result : Except Error Constraint} {after : Store}
    (ran : (storeConstraint cfg .none lhs rhs rel desc).run s = (result, after)) :
    StoresIfFree s.model (unnamedRow limit n lhs rel rhs desc) (result, after)
      ∧ (result.toBool = false → after.transaction = some t) := by
  obtain ⟨counters, named⟩ := constraintName_none next near
  have unreserved : ¬ (Name.sanitize limit (constraintId n) == Objective.label) = true := by
    simpa using sanitize_constraintId_ne_label limit n
  unfold storeConstraint at ran
  rw [run_transaction_inner opened] at ran
  simp only [run_bind, named, run_lift, limited, run_report, if_neg unreserved, run_model] at ran
  split at ran
  case h_1 other taken =>
    have some : (s.model.constraintNamed? (Name.sanitize limit (constraintId n))).isSome = true :=
      Option.isSome_iff_exists.mpr ⟨other, taken⟩
    split at ran <;> cases ran <;> exact ⟨⟨some, ⟨_, rfl, rfl⟩, rfl⟩, fun _ => opened⟩
  case h_2 free =>
    cases ran
    exact ⟨⟨free, rfl, rfl⟩, nofun⟩

/-- A transaction of its own ends like the step inside it: a failure that recorded nothing leaves
the rows as they were. -/
theorem StoresIfFree.of_transaction {step : Assembly Constraint} {c : Constraint}
    (closed : s.transaction = none)
    (within : ∀ result after,
      step.run s.begun = (result, after) →
        StoresIfFree s.model c (result, after)
          ∧ (result.toBool = false → after.transaction = some { counters := s.model.counters })) :
    StoresIfFree s.model c ((transaction step).run s) := by
  rcases inner : step.run s.begun with ⟨e | stored, after⟩
  · obtain ⟨⟨taken, cause, kept⟩, recorded⟩ := within _ _ inner
    rw [run_transaction_rollBack closed inner]
    refine ⟨taken, cause, ?_⟩
    rw [rollBack, recorded rfl]
    exact kept
  · rw [run_transaction_commit closed inner]
    exact (within _ _ inner).1

/-- An unnamed row is stored, inside a transaction or not, exactly if the LP name made of the next
automatic name is free. -/
theorem storeConstraint_unnamed (limited : cfg.nameLimit = .ok limit)
    (next : s.model.IsNextFree n)
    (near : n ≤ s.model.counter "constraint" + s.model.constraintNames.length) :
    StoresIfFree s.model (unnamedRow limit n lhs rel rhs desc)
      ((storeConstraint cfg .none lhs rhs rel desc).run s) := by
  cases entry : s.transaction with
  | some => exact (storeConstraint_opened limited entry next near rfl).1
  | none =>
    refine StoresIfFree.of_transaction entry fun result after ran => ?_
    refine @storeConstraint_opened cfg limit lhs rhs rel desc
      s.begun n _ limited rfl next near
      result after ?_
    rw [storeConstraint, run_transaction_inner rfl]
    exact ran

end Assembly

/-! ## Declaring unnamed constraints -/

theorem Model.Registered.constraintNamed?_eq_none {cfg : Config} {m : Model}
    (registered : m.Registered cfg) {name : String} :
    m.constraintNamed? name = none ↔ ∀ c ∈ m.constraints, c.name ≠ name := by
  simp [constraintNamed?, registered.constraintNames]

/-- What holds of the tables of a reachable model also holds in the middle of a transaction. -/
theorem Reachable.registered {cfg : Config} {s : Store} (reachable : Reachable cfg s)
    (operations : List Operation) :
    ∀ t ∈ [s, ((Operation.runAll cfg operations).run s.begun).2],
      t.model.Registered cfg := by
  have invariant := Model.registered_invariant cfg
  obtain ⟨coherent, -, registered⟩ := reachable.keeps invariant (Model.registered_empty cfg)
  refine forall_mem_cons.mpr ⟨registered, forall_mem_singleton.mpr ?_⟩
  exact (Operation.keeps_runAll invariant operations (fun _ _ _ _ _ _ => trivial) s.begun
    coherent).kept registered

/-- **Only a cut name keeps an unnamed constraint from being stored.** The search for an automatic
name ends at the first one that no row has, after at most as many steps as there are rows. The
constraint is stored under it, cut to the longest name that is allowed, if no row has that name,
and it is refused otherwise. A name that needs no cut is always free, and the first hundred million
have nine characters. -/
theorem unnamed_constraint_outcome {cfg : Config} {limit : Int}
    (limited : cfg.nameLimit = .ok limit) {s : Store} (reachable : Reachable cfg s)
    (operations : List Operation) {lhs rhs d : Polynomial} (minus : lhs.sub rhs = .ok d)
    (varies : d.isConstant = false) {sign : String} (known : sign ∈ Relation.signs)
    (desc : Value) :
    ∀ t ∈ [s, ((Operation.runAll cfg operations).run
      { s with transaction := some { counters := s.model.counters } }).2],
      ∃ rel n, Assembly.relationOf (.str sign) = .ok rel
        ∧ t.model.IsNextFree n ∧ n ≤ t.model.counter "constraint" + t.model.constraints.length
        ∧ (n < 10 ^ 8 → (Assembly.constraintId n).length = 9)
        ∧ let row := Assembly.unnamedRow limit n lhs rel rhs desc
          let outcome := (Assembly.addConstraint cfg .none lhs rel rhs desc).run t
          (((Assembly.constraintId n).length : Int) ≤ limit →
              row.name = Assembly.constraintId n
                ∧ ∀ other ∈ t.model.constraints, other.name ≠ row.name)
            ∧ ((∀ other ∈ t.model.constraints, other.name ≠ row.name) →
              ∃ t', outcome = (.ok (some row), t')
                ∧ t'.model.constraints = t.model.constraints ++ [row])
            ∧ ((∃ other ∈ t.model.constraints, other.name = row.name) →
              ∃ cause t', outcome = (.error (.refused cause), t') ∧ cause.kind = .duplicateName
                ∧ t'.model.constraints = t.model.constraints) := by
  intro t member
  have registered := reachable.registered operations t member
  obtain ⟨rel, isRelation, -⟩ := Assembly.relationOf_signs known
  obtain ⟨n, next, near⟩ := t.model.exists_isNextFree
  have rows : t.model.constraintNames.length = t.model.constraints.length := by
    rw [registered.constraintNames, List.length_map]
  have stores := @Assembly.storeConstraint_unnamed cfg limit lhs rhs rel desc t n
    limited next near
  refine ⟨rel, n, isRelation, next, rows ▸ near, Assembly.length_constraintId, ?_, ?_⟩
  · intro fits
    have same : (Assembly.unnamedRow limit n lhs rel rhs desc).name
        = Assembly.constraintId n := Assembly.sanitize_constraintId_eq_self fits
    refine ⟨same, registered.constraintNamed?_eq_none.mp ?_⟩
    rw [same]
    exact next.free
  · rw [Assembly.addConstraint_stores minus varies]
    rcases ran : (Assembly.storeConstraint cfg .none lhs rhs rel desc).run t with
      ⟨e | stored, t'⟩
    · rw [ran] at stores
      obtain ⟨taken, ⟨cause, rfl, kind⟩, kept⟩ := stores
      refine ⟨fun free => ?_, fun _ => ⟨cause, t', rfl, kind, kept⟩⟩
      rw [registered.constraintNamed?_eq_none.mpr free] at taken
      cases taken
    · rw [ran] at stores
      obtain ⟨free, rfl, kept⟩ := stores
      refine ⟨fun _ => ⟨t', rfl, kept⟩, ?_⟩
      rintro ⟨other, known, same⟩
      exact absurd same (registered.constraintNamed?_eq_none.mp free other known)

/-- The store after a variable `x` and one row `x <= 2` under a given name, or under none. -/
def oneRow (cfg : Config) (name : Value) : Store :=
  let declared := ((Operation.declareVariable (.str "x") [] (.str "continuous") (.int 0) (.int 3)
    .none false).run cfg).run {}
  ((Operation.declareConstraint name (.ofKey ⟨"x", []⟩) (.str "<=") (.const (.int 2))
    .none).run cfg).run declared.2 |>.2

theorem reachable_oneRow (cfg : Config) (name : Value) : Reachable cfg (oneRow cfg name) :=
  ((Reachable.empty .none).operation _).operation _

/-- Names of nine characters leave room for the automatic ones, also if a user took the first. -/
theorem taken_first_name_skipped :
    let cfg : Config := { maxNameLength := .int 9 }
    let s := oneRow cfg (.str "c00000000")
    s.model.constraints.map (·.name) = ["c00000000"]
      ∧ ∃ row t, (Assembly.addConstraint cfg .none (.ofKey ⟨"x", []⟩) .atLeast (.const (.int 1))
          .none).run s = (.ok (some row), t)
        ∧ row.name = "c00000001" ∧ t.model.constraints = s.model.constraints ++ [row] := by
  intro cfg s
  have names : s.model.constraints.map (·.name) = ["c00000000"] := by decide +kernel
  have counter : s.model.counter "constraint" = 0 := by decide +kernel
  have taken : (s.model.constraintNamed? (Assembly.constraintId 0)).isSome = true := by
    decide +kernel
  obtain ⟨rel, n, isRelation, next, near, -, fits, stored, -⟩ :=
    @unnamed_constraint_outcome cfg 9 rfl s (reachable_oneRow cfg _) [] (.ofKey ⟨"x", []⟩)
      (.const (.int 1)) _ rfl rfl ">=" (by decide) .none s List.mem_cons_self
  obtain rfl : Relation.atLeast = rel := by
    have sign : Assembly.relationOf (.str ">=") = .ok .atLeast := rfl
    exact Except.ok.inj (sign.symm.trans isRelation)
  have second : n = 1 := by
    have rows : s.model.constraints.length = 1 := by simpa using congrArg List.length names
    have other : n ≠ 0 := by
      rintro rfl
      rw [next.free] at taken
      cases taken
    omega
  subst second
  obtain ⟨same, free⟩ := fits (by decide +kernel)
  obtain ⟨t, ran, kept⟩ := stored free
  exact ⟨names, _, t, ran, same.trans (by decide +kernel), kept⟩

/-- Shorter names do not: the first two automatic names are one name when cut to eight characters,
and the second unnamed constraint is refused. -/
theorem cut_name_refused :
    let cfg : Config := { maxNameLength := .int 8 }
    let s := oneRow cfg .none
    let outcome := (Assembly.addConstraint cfg .none (.ofKey ⟨"x", []⟩) .atLeast
      (.const (.int 1)) .none).run s
    cfg.checked = .ok cfg ∧ Reachable cfg s
      ∧ s.model.constraints.map (fun c => (c.name, c.rawName)) = [("c0000000", "c00000000")]
      ∧ (match outcome.1 with
          | .ok _ => none
          | .error e => e.message?)
        = some "Constraint names 'c00000001' and 'c00000000' both become 'c0000000'"
      ∧ outcome.2.model.constraints.map (·.name) = ["c0000000"] :=
  ⟨rfl, reachable_oneRow _ _, by decide +kernel, by decide +kernel, by decide +kernel⟩

end LinearProgram
