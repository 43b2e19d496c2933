import LinearProgram.Proofs.Realization

/-!
# Feasible assignments

A feasible assignment respects all bounds and kinds and satisfies all stored constraints. A model is
`Faithful` to a demand if its feasible assignments, without the auxiliary variables, are those that
meet the demand; a step `Builds` a condition if it adds it to the demand.
-/

namespace LinearProgram

open List

variable {m : Model}

/-! ## Constraints in normalized form -/

/-- Whether a stored constraint holds with its variables on the left and its constant on the right.
-/
def Constraint.HoldsNormalized (c : Constraint) (a : Assignment) : Prop :=
  ∃ linear bound, c.normalized = .ok (linear, bound)
    ∧ c.relation.Relates (linear.valueAt a) bound.toRat

/-- Whether an assignment respects all bounds and kinds and satisfies all stored constraints. -/
def Model.Feasible (m : Model) (a : Assignment) : Prop :=
  m.Admits a ∧ ∀ c ∈ m.constraints, c.HoldsNormalized a

theorem Relation.relates_sub (rel : Relation) (x y z : ℚ) :
    rel.Relates (x - y - z) (-z) ↔ rel.Relates x y := by
  cases rel <;> simp only [Relates] <;> constructor <;> intro related <;> linarith

theorem Relation.relates_difference (rel : Relation) {p q : Polynomial}
    {terms : List (VarKey × Number)} {n : Int} {a : Assignment}
    (value : n + Polynomial.sumAt a terms = p.valueAt a - q.valueAt a) :
    rel.Relates (Polynomial.sumAt a terms) (-n)
      ↔ rel.Relates (p.valueAt a) (q.valueAt a) := by
  have moved : Polynomial.sumAt a terms = p.valueAt a - q.valueAt a - n := by linarith
  rw [moved, relates_sub]

/-- A row as it is written: the terms of the difference, and minus its constant. -/
theorem Constraint.normalized_whole {c : Constraint} {terms : List (VarKey × Number)} {n : Int}
    (minus : c.lhs.sub c.rhs = .ok (.ofTerms terms (.int n))) :
    c.normalized = .ok (.ofTerms terms (.int 0), .int (-n)) := by
  have once : (Polynomial.ofTerms terms (.int n)).linearPart = .ofTerms terms (.int 0) := by
    simp [Polynomial.linearPart, Polynomial.ofTerms]
  rw [normalized, difference, minus]
  show Except.ok ((Polynomial.ofTerms terms (.int n)).linearPart, _) = _
  rw [once]
  rfl

/-- Moving the variables to the left and the constants to the right changes nothing. -/
theorem Constraint.holdsNormalized_iff {c : Constraint} (left : c.lhs.Formed m)
    (right : c.rhs.Formed m) (a : Assignment) : c.HoldsNormalized a ↔ c.HoldsAt a := by
  obtain ⟨terms, n, minus, exact, values⟩ := left.whole.sub right.whole
  have normalized := normalized_whole minus
  have shifted := c.relation.relates_difference (values a)
  rw [← zero_add (Polynomial.sumAt a terms), ← Int.cast_zero,
    ← Polynomial.valueAt_ofTerms a 0 exact, ← Int.cast_neg, ← Number.toRat_int] at shifted
  constructor
  · rintro ⟨linear, bound, same, related⟩
    cases same.symm.trans normalized
    exact shifted.mp related
  · intro holds
    exact ⟨_, _, normalized, shifted.mpr holds⟩

theorem Model.feasible_iff (formed : ∀ c ∈ m.constraints, c.lhs.Formed m ∧ c.rhs.Formed m)
    (a : Assignment) : m.Feasible a ↔ m.Admits a ∧ ∀ c ∈ m.constraints, c.HoldsAt a :=
  and_congr_right fun _ => forall₂_congr fun c mem =>
    Constraint.holdsNormalized_iff (formed c mem).1 (formed c mem).2 a

theorem Model.Feasible.congr {a a' : Assignment} (feasible : m.Feasible a)
    (formed : ∀ c ∈ m.constraints, c.lhs.Formed m ∧ c.rhs.Formed m)
    (columns : ∀ v ∈ m.columns, a'.value v.key = a.value v.key) : m.Feasible a' := by
  obtain ⟨admits, rows⟩ := (feasible_iff formed a).mp feasible
  refine (feasible_iff formed a').mpr ⟨admits.congr columns, ?_⟩
  intro c mem
  rw [Constraint.HoldsAt, (formed c mem).1.valueAt_congr columns,
    (formed c mem).2.valueAt_congr columns]
  exact rows c mem

/-! ## Models and demands -/

/-- The second assignment differs from the first only at instances of auxiliary families. -/
def SamePlain (cfg : Config) (a a' : Assignment) : Prop :=
  ∀ key : VarKey, ¬ cfg.IsAuxiliary key.family → a'.value key = a.value key

/-- A condition that looks at no instance of an auxiliary family. -/
def PlainOnly (cfg : Config) (condition : Assignment → Prop) : Prop :=
  ∀ a a', SamePlain cfg a a' → condition a → condition a'

/-- A model whose feasible assignments are, up to auxiliary variables, those that meet a demand. -/
structure Faithful (cfg : Config) (m : Model) (demand : Assignment → Prop) : Prop where
  bounds : m.ExactBounds
  formed : ∀ c ∈ m.constraints, c.lhs.Formed m ∧ c.rhs.Formed m
  flags : ∀ v ∈ m.columns, v.auxiliary = true ↔ cfg.IsAuxiliary v.key.family
  plain : PlainOnly cfg demand
  sound : ∀ a, m.Feasible a → demand a
  complete : ∀ a, demand a → ∃ a', SamePlain cfg a a' ∧ m.Feasible a'

/-- An assignment that takes the auxiliary families from one assignment and all others from another.
-/
theorem exists_spliced (cfg : Config) (a a' : Assignment) :
    ∃ b : Assignment, SamePlain cfg a b
      ∧ ∀ key : VarKey, cfg.IsAuxiliary key.family → b.value key = a'.value key := by
  classical
  refine ⟨⟨fun key => if cfg.IsAuxiliary key.family then a'.value key else a.value key, ?_⟩,
    fun key plain => if_neg plain, fun key auxiliary => if_pos auxiliary⟩
  intro k k' same
  simp only [VarKey.family_of_equal same, a.respects same, a'.respects same]

namespace Faithful

variable {cfg : Config} {m : Model} {demand demand' : Assignment → Prop}

theorem congr (faithful : Faithful cfg m demand) (same : ∀ a, demand' a ↔ demand a) :
    Faithful cfg m demand' := by
  have equal : demand' = demand := funext fun a => propext (same a)
  rw [equal]
  exact faithful

/-- The assignments that are feasible for some values of the auxiliary variables are those that meet
the demand. -/
theorem projection (faithful : Faithful cfg m demand) (a : Assignment) :
    (∃ a' : Assignment, (∀ v ∈ m.columns, v.auxiliary = false → a'.value v.key = a.value v.key)
      ∧ m.Feasible a') ↔ demand a := by
  constructor
  · rintro ⟨a', declared, feasible⟩
    -- put the auxiliary values of `a'` into `a`: the columns of the model cannot tell it from `a'`
    obtain ⟨b, plain, auxiliary⟩ := exists_spliced cfg a a'
    have columns : ∀ v ∈ m.columns, b.value v.key = a'.value v.key := by
      intro v mem
      by_cases isAuxiliary : cfg.IsAuxiliary v.key.family
      · exact auxiliary v.key isAuxiliary
      · have flag : v.auxiliary = false :=
          Bool.eq_false_iff.mpr fun flagged => isAuxiliary ((faithful.flags v mem).mp flagged)
        rw [plain v.key isAuxiliary, declared v mem flag]
    have meets := faithful.sound b (feasible.congr faithful.formed columns)
    exact faithful.plain b a (fun key isPlain => (plain key isPlain).symm) meets
  · intro meets
    obtain ⟨a', plain, feasible⟩ := faithful.complete a meets
    refine ⟨a', ?_, feasible⟩
    intro v mem flag
    refine plain v.key fun isAuxiliary => ?_
    rw [(faithful.flags v mem).mpr isAuxiliary] at flag
    cases flag

theorem empty (cfg : Config) (name : Value) : Faithful cfg { name } fun _ => True where
  bounds _ mem := absurd mem not_mem_nil
  formed _ mem := absurd mem not_mem_nil
  flags _ mem := absurd mem not_mem_nil
  plain _ _ _ _ := trivial
  sound _ _ := trivial
  complete a _ := ⟨a, fun _ _ => rfl, fun _ mem => absurd mem not_mem_nil,
    fun _ mem => absurd mem not_mem_nil⟩

end Faithful

/-! ## Steps that build a condition -/

/-- A step that adds a condition to the demand a model is faithful to. -/
structure Builds (cfg : Config) (m m' : Model) (condition : Assignment → Prop) : Prop where
  feasible : ∀ a, m'.Feasible a → m.Feasible a
  faithful : ∀ {demand : Assignment → Prop}, Faithful cfg m demand →
    Faithful cfg m' fun a => demand a ∧ condition a

namespace Builds

variable {cfg : Config} {m m₁ m₂ : Model} {condition condition' : Assignment → Prop}

theorem congr (builds : Builds cfg m m₁ condition) (same : ∀ a, condition' a ↔ condition a) :
    Builds cfg m m₁ condition' := by
  have equal : condition' = condition := funext fun a => propext (same a)
  rw [equal]
  exact builds

theorem trans (first : Builds cfg m m₁ condition) (second : Builds cfg m₁ m₂ condition') :
    Builds cfg m m₂ fun a => condition a ∧ condition' a where
  feasible a feasible := first.feasible a (second.feasible a feasible)
  faithful faithful :=
    (second.faithful (first.faithful faithful)).congr fun _ => and_assoc.symm

/-- Feasibility looks at nothing but columns and constraints. -/
theorem of_same (columns : m₁.columns = m.columns) (rows : m₁.constraints = m.constraints) :
    Builds cfg m m₁ fun _ => True := by
  have feasible : ∀ a, m₁.Feasible a ↔ m.Feasible a := by
    intro a
    unfold Model.Feasible Model.Admits
    rw [columns, rows]
  refine ⟨fun a => (feasible a).mp, fun {demand} faithful => ?_⟩
  have formed : ∀ {p : Polynomial}, p.Formed m → p.Formed m₁ := fun formed =>
    formed.mono fun key declared => by
      unfold Model.declared? at declared ⊢
      rw [columns]
      exact declared
  exact {
    bounds := by
      unfold Model.ExactBounds
      rw [columns]
      exact faithful.bounds
    formed := by
      rw [rows]
      exact fun c mem =>
        ⟨formed (faithful.formed c mem).1, formed (faithful.formed c mem).2⟩
    flags := by
      rw [columns]
      exact faithful.flags
    plain := fun a a' same meets => ⟨faithful.plain a a' same meets.1, trivial⟩
    sound := fun a feasible₁ => ⟨faithful.sound a ((feasible a).mp feasible₁), trivial⟩
    complete := fun a meets => by
      obtain ⟨a', same, feasible'⟩ := faithful.complete a meets.1
      exact ⟨a', same, (feasible a').mpr feasible'⟩ }

/-- A step that realizes a condition on the variables so far builds it. -/
theorem of_realizes (step : Realizes cfg False m m₁ (fun _ => ()) fun a _ => condition a)
    (plain : PlainOnly cfg condition) : Builds cfg m m₁ condition where
  feasible a feasible := by
    obtain ⟨new, rows, -⟩ := step.extension.constraints
    refine ⟨step.extension.admits feasible.1, fun c mem => feasible.2 c ?_⟩
    rw [rows]
    exact mem_append_left _ mem
  faithful {demand} faithful := by
    obtain ⟨new, rows, formedNew⟩ := step.extension.constraints
    obtain ⟨added, columns, auxiliary⟩ := step.extension.columns
    have formed : ∀ c ∈ m₁.constraints, c.lhs.Formed m₁ ∧ c.rhs.Formed m₁ := by
      intro c mem
      rw [rows] at mem
      rcases mem_append.mp mem with old | young
      · obtain ⟨left, right⟩ := faithful.formed c old
        exact ⟨step.extension.formed left, step.extension.formed right⟩
      · exact formedNew c young
    have newRows : m₁.constraints.drop m.constraints.length = new := by
      rw [rows, drop_left]
    refine ⟨step.extension.exact faithful.bounds, formed, ?_, ?_, ?_, ?_⟩
    · -- new columns are auxiliary by name and by flag
      intro v mem
      rw [columns] at mem
      rcases mem_append.mp mem with old | young
      · exact faithful.flags v old
      · exact iff_of_true (auxiliary v young).2 (auxiliary v young).1
    · exact fun a a' same meets => ⟨faithful.plain a a' same meets.1, plain a a' same meets.2⟩
    · intro a feasible
      obtain ⟨admits, holds⟩ := (Model.feasible_iff formed a).mp feasible
      have old : m.Feasible a := (Model.feasible_iff faithful.formed a).mpr
        ⟨step.extension.admits admits,
          fun c mem => holds c (by rw [rows]; exact mem_append_left _ mem)⟩
      refine ⟨faithful.sound a old, step.reading admits fun c mem => holds c ?_⟩
      exact mem_of_mem_drop mem
    · -- meet the demand of the smaller model first, then give the new variables their values
      rintro a ⟨meets, holds⟩
      obtain ⟨a₁, same₁, feasible₁⟩ := faithful.complete a meets
      obtain ⟨admits₁, rows₁⟩ := (Model.feasible_iff faithful.formed a₁).mp feasible₁
      obtain ⟨a₂, agrees, admits₂, holds₂, -⟩ :=
        step.extend (v := ()) admits₁ (plain a a₁ same₁ holds)
      refine ⟨a₂, fun key isPlain => (agrees.plain key isPlain).trans (same₁ key isPlain), ?_⟩
      refine (Model.feasible_iff formed a₂).mpr ⟨admits₂, fun c mem => ?_⟩
      rw [rows] at mem
      rcases mem_append.mp mem with old | young
      · exact (agrees.holdsAt (faithful.formed c old).1 (faithful.formed c old).2).mpr
          (rows₁ c old)
      · exact holds₂ c (by rw [newRows]; exact young)

/-- A new variable builds the condition that its bounds and its kind are respected. -/
theorem addVariable {v : Variable} (exact : v.ExactBounds) (flag : v.auxiliary = false)
    (plain : ¬ cfg.IsAuxiliary v.key.family) :
    Builds cfg m (m.addVariable v) v.Admits := by
  have feasible : ∀ a, (m.addVariable v).Feasible a ↔ m.Feasible a ∧ v.Admits a := by
    intro a
    simp only [Model.Feasible, Model.Admits, Model.addVariable, forall_mem_append,
      forall_mem_singleton]
    tauto
  have formed : ∀ {p : Polynomial}, p.Formed m → p.Formed (m.addVariable v) := by
    refine fun formed => formed.mono fun key declared => ?_
    obtain ⟨u, found⟩ := Option.isSome_iff_exists.mp declared
    rw [Model.declared?] at found ⊢
    rw [Model.addVariable, find?_append, found]
    rfl
  refine ⟨fun a feasible₁ => ((feasible a).mp feasible₁).1, fun {demand} faithful => ?_⟩
  exact {
    bounds := forall_mem_append.mpr
      ⟨faithful.bounds, forall_mem_singleton.mpr exact⟩
    formed := fun c mem =>
      ⟨formed (faithful.formed c mem).1, formed (faithful.formed c mem).2⟩
    flags := forall_mem_append.mpr
      ⟨faithful.flags, forall_mem_singleton.mpr (by simp [flag, plain])⟩
    plain := by
      intro a a' same meets
      refine ⟨faithful.plain a a' same meets.1, ?_⟩
      unfold Variable.Admits
      rw [same v.key plain]
      exact meets.2
    sound := by
      intro a feasible₁
      obtain ⟨old, admits⟩ := (feasible a).mp feasible₁
      exact ⟨faithful.sound a old, admits⟩
    complete := by
      -- the new variable is not auxiliary, so it keeps the value that the demand asks for
      rintro a ⟨meets, admits⟩
      obtain ⟨a', same, feasible'⟩ := faithful.complete a meets
      refine ⟨a', same, (feasible a').mpr ⟨feasible', ?_⟩⟩
      unfold Variable.Admits
      rw [same v.key plain]
      exact admits }

end Builds

end LinearProgram
