import LinearProgram.Proofs.DefineExact
import LinearProgram.Proofs.Rollback

/-!
# The tables of a model agree

The tables that a model keeps for look-ups and name checks are what its columns and rows make them
(`Model.Registered`). Arity and kind are checked against the first instance of a family only, and
carry over because the family was uniform before.
-/

namespace LinearProgram

open List

/-! ## The tables -/

namespace Model

/-- The index tuples of a family's columns, in the order of the columns. -/
def tuplesOf (m : Model) (family : String) : List (List Value) :=
  (m.columns.filter (·.key.family == family)).map (·.key.index)

/-- The tables are what the columns and rows make them. -/
structure Registered (cfg : Config) (m : Model) : Prop where
  /-- A family is known as soon as it has a column, and then lists the tuples of its columns. -/
  families : ∀ family, m.family? family
    = if (m.tuplesOf family).isEmpty then none else some (m.tuplesOf family)
  families_once : (m.families.map (·.1)).Nodup
  /-- No instance is declared twice. -/
  distinct : m.columns.Pairwise fun u v => u.key.equal v.key = false
  /-- All columns of a family have one arity and one kind. -/
  uniform : ∀ u ∈ m.columns, ∀ v ∈ m.columns, u.key.family = v.key.family →
    u.key.index.length = v.key.index.length ∧ u.kind = v.kind
  variableNames : m.variableNames = m.columns.map fun v => (v.name, v.key)
  names_once : (m.columns.map (·.name)).Nodup
  named : ∀ v ∈ m.columns, ∃ limit, cfg.nameLimit = .ok limit ∧ v.name = Name.ofKey limit v.key
  constraintNames : m.constraintNames = m.constraints.map fun c => (c.name, c.rawName)
  rows_once : (m.constraints.map (·.name)).Nodup
  rows_named : ∀ c ∈ m.constraints, c.name ≠ Objective.label
    ∧ ∃ limit, cfg.nameLimit = .ok limit ∧ c.name = Name.sanitize limit c.rawName

variable {cfg : Config} {m : Model} {v : Variable} {c : Constraint}

theorem registered_empty (cfg : Config) (name : Value) :
    ({ name } : Model).Registered cfg where
  families _ := rfl
  families_once := nodup_nil
  distinct := List.Pairwise.nil
  uniform := by simp
  variableNames := rfl
  names_once := nodup_nil
  named := by simp
  constraintNames := rfl
  rows_once := nodup_nil
  rows_named := by simp

/-- Nothing but the columns, the rows and their tables matters. -/
theorem Registered.with_same {m' : Model} (registered : m.Registered cfg)
    (columns : m'.columns = m.columns) (families : m'.families = m.families)
    (variableNames : m'.variableNames = m.variableNames)
    (constraints : m'.constraints = m.constraints)
    (constraintNames : m'.constraintNames = m.constraintNames) : m'.Registered cfg := by
  obtain ⟨⟩ := m
  obtain ⟨⟩ := m'
  simp only at columns families variableNames constraints constraintNames
  subst columns families variableNames constraints constraintNames
  exact ⟨registered.families, registered.families_once, registered.distinct, registered.uniform,
    registered.variableNames, registered.names_once, registered.named, registered.constraintNames,
    registered.rows_once, registered.rows_named⟩

theorem Registered.indexTuples (registered : m.Registered cfg) (family : String) :
    m.indexTuples family = m.tuplesOf family := by
  rw [Model.indexTuples, registered.families]
  split
  case isTrue empty => simpa using (List.isEmpty_iff.mp empty).symm
  case isFalse => rfl

theorem mem_tuplesOf {family : String} {index : List Value} :
    index ∈ m.tuplesOf family ↔ ∃ v ∈ m.columns, v.key = ⟨family, index⟩ := by
  simp only [tuplesOf, mem_map, mem_filter, beq_iff_eq]
  constructor
  · rintro ⟨v, ⟨mem, rfl⟩, rfl⟩
    exact ⟨v, mem, rfl⟩
  · rintro ⟨v, mem, key⟩
    exact ⟨v, ⟨mem, by rw [key]⟩, by rw [key]⟩

theorem Registered.tuples_distinct (registered : m.Registered cfg) (family : String) :
    (m.indexTuples family).Pairwise fun index other => Value.equalItems index other = false := by
  rw [registered.indexTuples, tuplesOf, pairwise_map]
  refine (registered.distinct.filter _).imp_of_mem ?_
  intro u v left right different
  simp only [mem_filter, beq_iff_eq] at left right
  simpa [VarKey.equal, left.2, right.2] using different

/-! ## One more column -/

theorem tuplesOf_addVariable (m : Model) (v : Variable) (family : String) :
    (m.addVariable v).tuplesOf family
      = m.tuplesOf family ++ (if v.key.family = family then [v.key.index] else []) := by
  by_cases same : v.key.family = family <;> simp [tuplesOf, addVariable, same]

theorem find?_addIndex_self (family : String) (index : List Value)
    (families : List (String × List (List Value))) :
    (addIndex family index families).find? (fun entry => entry.1 == family)
      = some (family, (((families.find? fun entry => entry.1 == family).map (·.2)).getD [])
        ++ [index]) := by
  induction families with
  | nil => simp [addIndex]
  | cons entry _ ih =>
    by_cases same : entry.1 = family
    · simp [addIndex, same]
    · simp [addIndex, same, ih]

theorem family?_addVariable (m : Model) (v : Variable) (family : String) :
    (m.addVariable v).family? family
      = if v.key.family = family then some (m.indexTuples family ++ [v.key.index])
        else m.family? family := by
  split
  case isTrue same =>
    subst same
    rw [family?, addVariable, find?_addIndex_self]
    rfl
  case isFalse different =>
    rw [family?, addVariable, find?_addIndex (Ne.symm different)]
    rfl

theorem names_addIndex (family : String) (index : List Value)
    (families : List (String × List (List Value))) :
    (addIndex family index families).map (·.1)
      = families.map (·.1) ++ (if family ∈ families.map (·.1) then [] else [family]) := by
  induction families with
  | nil => simp [addIndex]
  | cons entry _ ih =>
    by_cases same : entry.1 = family
    · simp [addIndex, same]
    · have other : family ≠ entry.1 := Ne.symm same
      simp only [addIndex, beq_iff_eq, same, ↓reduceIte, map_cons, ih, mem_cons, other,
        false_or, cons_append]

/-- What the check against a family's first instance establishes. -/
theorem checkFamily_ok {key : VarKey} {kind : VariableKind}
    (fits : Assembly.checkFamily m key kind = .ok ()) :
    m.indexTuples key.family = []
      ∨ ∃ index ∈ m.indexTuples key.family, index.length = key.index.length
        ∧ ∃ u ∈ m.columns, u.key.family = key.family ∧ u.kind = kind := by
  unfold Assembly.checkFamily at fits
  split at fits
  case h_1 none => exact .inl none
  case h_2 first rest known =>
    split at fits
    case isTrue => exact absurd fits (raise_ne_ok _ _)
    case isFalse arity =>
      split at fits
      case h_1 u found =>
        split at fits
        case isTrue kind' =>
          obtain ⟨mem, same⟩ := declared?_some found
          refine .inr ⟨first, ?_, not_not.mp arity, u, mem, (VarKey.family_of_equal same :),
            kind'⟩
          rw [known]
          exact mem_cons_self
        case isFalse => exact absurd fits (raise_ne_ok _ _)
      case h_2 => exact absurd fits (breakDown_ne_ok _ _)

theorem Registered.fits_all (registered : m.Registered cfg)
    (fits : Assembly.checkFamily m v.key v.kind = .ok ()) :
    ∀ u ∈ m.columns, u.key.family = v.key.family →
      u.key.index.length = v.key.index.length ∧ u.kind = v.kind := by
  intro u mem same
  have listed : u.key.index ∈ m.indexTuples v.key.family := by
    rw [registered.indexTuples]
    exact mem_tuplesOf.mpr ⟨u, mem, by rw [← same]⟩
  rcases checkFamily_ok fits with none | ⟨first, known, arity, w, mem', same', kind⟩
  · rw [none] at listed
    exact absurd listed not_mem_nil
  · rw [registered.indexTuples] at known
    obtain ⟨t, mem'', key⟩ := mem_tuplesOf.mp known
    have likeFirst := (registered.uniform u mem t mem'' (by rw [same, key])).1
    have likeOther := (registered.uniform u mem w mem' (same.trans same'.symm)).2
    exact ⟨by rw [likeFirst, key, ← arity], likeOther.trans kind⟩

theorem Registered.addVariable (registered : m.Registered cfg) (accepted : m.Accepts cfg v) :
    (m.addVariable v).Registered cfg where
  families family := by
    rw [family?_addVariable, tuplesOf_addVariable, registered.indexTuples]
    split
    · simp
    · simpa using registered.families family
  families_once := by
    show ((addIndex v.key.family v.key.index m.families).map (·.1)).Nodup
    rw [names_addIndex]
    split
    · simpa using registered.families_once
    case isFalse absent =>
      rw [nodup_append]
      refine ⟨registered.families_once, by simp, ?_⟩
      rintro family known _ new rfl
      exact absent (mem_singleton.mp new ▸ known)
  distinct := by
    refine pairwise_append.mpr ⟨registered.distinct, pairwise_singleton _ _, ?_⟩
    intro u mem w new
    rw [mem_singleton.mp new]
    exact Bool.eq_false_iff.mpr (find?_eq_none.mp accepted.fresh u mem)
  uniform u left w right same := by
    have old := registered.fits_all accepted.fits
    rcases mem_append.mp left with known | new
    · rcases mem_append.mp right with known' | new'
      · exact registered.uniform u known w known' same
      · rw [mem_singleton.mp new'] at same ⊢
        exact old u known same
    · rw [mem_singleton.mp new] at same ⊢
      rcases mem_append.mp right with known' | new'
      · obtain ⟨arity, kind⟩ := old w known' same.symm
        exact ⟨arity.symm, kind.symm⟩
      · rw [mem_singleton.mp new']
        exact ⟨rfl, rfl⟩
  variableNames := by simp [Model.addVariable, registered.variableNames]
  names_once := by
    have free : v.name ∉ m.columns.map (·.name) := by
      intro taken
      obtain ⟨u, mem, same⟩ := mem_map.mp taken
      have entry : (u.name, u.key) ∈ m.variableNames := by
        rw [registered.variableNames]
        exact mem_map.mpr ⟨u, mem, rfl⟩
      have different := find_none_of_map accepted.free _ entry
      simp [same] at different
    simpa [Model.addVariable, nodup_append] using
      ⟨registered.names_once, fun u mem same => free (mem_map.mpr ⟨u, mem, same⟩)⟩
  named u mem := by
    rcases mem_append.mp mem with known | new
    · exact registered.named u known
    · rw [mem_singleton.mp new]
      exact accepted.named
  constraintNames := registered.constraintNames
  rows_once := registered.rows_once
  rows_named := registered.rows_named

/-! ## One more row -/

theorem Registered.addConstraint (registered : m.Registered cfg)
    (accepted : m.AcceptsRow cfg c) : (m.addConstraint c).Registered cfg where
  families := registered.families
  families_once := registered.families_once
  distinct := registered.distinct
  uniform := registered.uniform
  variableNames := registered.variableNames
  names_once := registered.names_once
  named := registered.named
  constraintNames := by simp [Model.addConstraint, registered.constraintNames]
  rows_once := by
    have free : c.name ∉ m.constraints.map (·.name) := by
      intro taken
      obtain ⟨row, mem, same⟩ := mem_map.mp taken
      have entry : (row.name, row.rawName) ∈ m.constraintNames := by
        rw [registered.constraintNames]
        exact mem_map.mpr ⟨row, mem, rfl⟩
      have different := find_none_of_map accepted.free _ entry
      simp [same] at different
    simpa [Model.addConstraint, nodup_append] using
      ⟨registered.rows_once, fun row mem same => free (mem_map.mpr ⟨row, mem, same⟩)⟩
  rows_named row mem := by
    rcases mem_append.mp mem with known | new
    · exact registered.rows_named row known
    · rw [mem_singleton.mp new]
      exact ⟨accepted.unreserved, accepted.named⟩

end Model

/-! ## Legal bounds -/

/-- The bounds that a variable of its kind may have. -/
structure Variable.Legal (v : Variable) : Prop where
  binary : v.kind = .binary → v.lower = none ∧ v.upper = none
  integral : v.kind = .integer → ∀ x, v.lower = some x ∨ v.upper = some x →
    x.isFinite = true → x.whole?.isSome = true
  lower : v.bounds.1.equal .infinity = false
  upper : v.bounds.2.equal .negInfinity = false
  ordered : v.bounds.1.lessEq v.bounds.2 = true

/-- A bound that can be given without a double: an integer or an infinity. -/
def Number.IsGiven (x : Number) : Prop := (∃ n : Int, x = .int n) ∨ x = .infinity ∨ x = .negInfinity

/-- A lower and an upper bound in effect are in order, unless they are two integers that cross. -/
theorem Number.lessEq_of_isBound {l u : Number} (low : l.IsBound true) (high : u.IsBound false)
    (uncrossed : ∀ a b : Int, l = .int a → u = .int b → a ≤ b) : l.lessEq u = true := by
  have below : Double.ofFloat (Double.infinity true) = .infinite true := by decide
  have above : Double.ofFloat (Double.infinity false) = .infinite false := by decide
  rcases low with ⟨a, rfl⟩ | rfl <;> rcases high with ⟨b, rfl⟩ | rfl
  · simpa using uncrossed a b rfl rfl
  · simp only [lessEq, compare?, above, Double.compareInt]
    rfl
  · simp only [lessEq, compare?, below, Double.compareInt]
    rfl
  · decide

/-- Checked bounds are legal, unless a double hides NaN. -/
theorem Variable.legal_of_check {v : Variable}
    (checked : Bound.check v.key.text v.kind v.lower v.upper = .ok ())
    (lower : ∀ x, v.lower = some x → x.IsGiven) (upper : ∀ x, v.upper = some x → x.IsGiven) :
    v.Legal := by
  obtain ⟨binary, -, uncrossed⟩ := Bound.check_ok checked
  obtain ⟨low, high⟩ := exactBounds_of_check checked lower upper
  refine ⟨binary, ?_, ?_, ?_, Number.lessEq_of_isBound low high ?_⟩
  · intro _ x given finite
    rcases given.elim (lower x) (upper x) with ⟨n, rfl⟩ | rfl | rfl
    · rfl
    · exact absurd finite (by decide)
    · exact absurd finite (by decide)
  · rcases low with ⟨n, shape⟩ | shape
    · rw [shape]
      exact Number.int_equal_infinity n false
    · rw [shape]
      decide
  · rcases high with ⟨n, shape⟩ | shape
    · rw [shape]
      exact Number.int_equal_infinity n true
    · rw [shape]
      decide
  · intro a b isLower isUpper
    by_cases kind : v.kind = .binary
    · rw [bounds_binary kind] at isLower isUpper
      cases isLower
      cases isUpper
      decide
    · -- an integer in effect was given, and the two given ones were compared
      rw [bounds_of_ne_binary v kind] at isLower isUpper
      have given : v.lower = some (.int a) := by
        cases known : v.lower with
        | none => simp [known, Number.negInfinity] at isLower
        | some => simpa [known] using isLower
      have given' : v.upper = some (.int b) := by
        cases known : v.upper with
        | none => simp [known, Number.infinity] at isUpper
        | some => simpa [known] using isUpper
      simpa using uncrossed _ _ given given'

/-- A bound that is missing, an integer, an infinity or a word. Of the words only those for infinity
are read as bounds. -/
inductive Value.IsPlainBound : Value → Prop
  | missing : IsPlainBound .none
  | int (n : Int) : IsPlainBound (.int n)
  | infinite (negative : Bool) : IsPlainBound (.number (.float (Double.infinity negative)))
  | word (s : String) : IsPlainBound (.str s)

theorem Value.IsPlainBound.given {value : Value} {bound : Option Number}
    (plain : value.IsPlainBound) (read : Bound.ofValue value = .ok bound) :
    ∀ x, bound = some x → x.IsGiven := by
  cases plain with
  | missing => exact Bound.ofValue_exact (show Exact .none from trivial) read
  | int n => exact Bound.ofValue_exact (show Exact (.int n) from trivial) read
  | word s => exact Bound.ofValue_exact (show Exact (.str s) from trivial) read
  | infinite negative =>
    cases read
    rintro x ⟨⟩
    cases negative
    · exact .inr (.inl rfl)
    · exact .inr (.inr rfl)

/-! ## Assembly -/

namespace Model

/-- The tables hold whatever is compiled or declared, with whatever bounds. -/
theorem registered_invariant (cfg : Config) :
    Invariant cfg (fun _ => True) (Registered cfg) where
  counters _ registered := registered.with_same rfl rfl rfl rfl rfl
  column registered accepted _ := registered.addVariable accepted
  row registered accepted := registered.addConstraint accepted
  declaration _ registered := registered.with_same rfl rfl rfl rfl rfl
  objective _ registered := registered.with_same rfl rfl rfl rfl rfl

/-- The tables agree and all bounds are legal. -/
structure Consistent (cfg : Config) (m : Model) : Prop extends Registered cfg m where
  legal : ∀ v ∈ m.columns, v.Legal

theorem consistent_invariant (cfg : Config) :
    Invariant cfg Variable.Legal (Consistent cfg) where
  counters _ consistent := ⟨consistent.toRegistered.with_same rfl rfl rfl rfl rfl, consistent.legal⟩
  column consistent accepted legal := by
    refine ⟨consistent.toRegistered.addVariable accepted, fun u mem => ?_⟩
    rcases mem_append.mp mem with known | new
    · exact consistent.legal u known
    · rw [mem_singleton.mp new]
      exact legal
  row consistent accepted := ⟨consistent.toRegistered.addConstraint accepted, consistent.legal⟩
  declaration _ consistent :=
    ⟨consistent.toRegistered.with_same rfl rfl rfl rfl rfl, consistent.legal⟩
  objective _ consistent :=
    ⟨consistent.toRegistered.with_same rfl rfl rfl rfl rfl, consistent.legal⟩

end Model

/-- All bounds given in an operation, and in the ones inside it, are plain. -/
def PlainBounds (bounds : List (Value × Value)) : Prop :=
  ∀ given ∈ bounds, given.1.IsPlainBound ∧ given.2.IsPlainBound

theorem PlainBounds.passes {bounds : List (Value × Value)} (plain : PlainBounds bounds) :
    ∀ given ∈ bounds, Operation.Passes Variable.Legal given := by
  intro given mem v lower upper checked
  obtain ⟨low, high⟩ := plain given mem
  exact v.legal_of_check checked (low.given lower) (high.given upper)

/-- The stores that operations with plain bounds lead to from an empty model. -/
inductive Assembled (cfg : Config) : Store → Prop
  | empty (name : Value) : Assembled cfg { model := { name } }
  | operation {s : Store} (known : Assembled cfg s) (operation : Operation)
      (plain : PlainBounds operation.bounds) : Assembled cfg ((operation.run cfg).run s).2

theorem Assembled.coherent_consistent {cfg : Config} {s : Store}
    (assembled : Assembled cfg s) : s.model.Coherent ∧ s.model.Consistent cfg := by
  induction assembled with
  | empty name =>
    exact ⟨⟨by simp, by simp, by simp⟩, Model.registered_empty cfg name, by simp⟩
  | @operation s known operation plain ih =>
    have recorded := operation.keeps_run (Model.consistent_invariant cfg) plain.passes s ih.1
    exact ⟨recorded.coherent, recorded.kept ih.2⟩

/-- **The tables of a model agree.** Whatever operations have succeeded, failed or been taken back,
families list exactly the tuples of their columns, without repetition, names lead back to what they
name, and all bounds are legal; also in the middle of a transaction. -/
theorem assembled_model_consistent {cfg : Config} {s : Store} (assembled : Assembled cfg s)
    (operations : List Operation) (plain : PlainBounds (Operation.boundsAll operations)) :
    let inside := ((Operation.runAll cfg operations).run
      { s with transaction := some { counters := s.model.counters } }).2
    ∀ m ∈ [s.model, inside.model], m.Consistent cfg
      ∧ ∀ family, (m.indexTuples family).Pairwise fun index other =>
        Value.equalItems index other = false := by
  obtain ⟨coherent, consistent⟩ := assembled.coherent_consistent
  intro inside m which
  suffices known : m.Consistent cfg from ⟨known, known.tuples_distinct⟩
  rcases List.mem_cons.mp which with before | after
  · rw [before]
    exact consistent
  · rw [List.mem_singleton.mp after]
    exact (Operation.keeps_runAll (Model.consistent_invariant cfg) operations plain.passes
      s.begun coherent).kept consistent

/-- Two instances, a third that repeats the first one and a fourth that does not fit the family. -/
def fourInstances : List Operation :=
  let stock (index : List Value) (lower : Value) : Operation :=
    .declareVariable (.str "stock") index (.str "integer") lower (.str "inf") .none false
  [stock [.int 1] (.int 0), stock [.str "a"] .none, .caught [stock [.int 1] (.int 2)],
    .caught [stock [.int 1, .int 2] .none]]

theorem fourInstances_consistent :
    let inside := ((Operation.runAll {} fourInstances).run
      { transaction := some { counters := [] } }).2
    inside.model.columns.map (·.name) = ["stock(1)", "stock(a)"]
      ∧ inside.model.Consistent {} := by
  have plain : PlainBounds (Operation.boundsAll fourInstances) := by
    intro given member
    simp only [fourInstances, Operation.boundsAll, Operation.bounds, List.append_nil,
      List.cons_append, List.nil_append, List.mem_cons, List.not_mem_nil, or_false] at member
    rcases member with rfl | rfl | rfl | rfl <;> exact ⟨by constructor, by constructor⟩
  refine ⟨by decide +kernel, ?_⟩
  exact (assembled_model_consistent (.empty .none) fourInstances plain _
    (List.mem_cons_of_mem _ List.mem_cons_self)).1

end LinearProgram
