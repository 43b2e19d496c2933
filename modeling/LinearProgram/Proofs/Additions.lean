import LinearProgram.Proofs.Interval

/-!
# Additions

A step takes a model to a larger one and leaves something to read off an assignment, say the value
of its polynomial. `Expresses` relates what is read to the old variables: sound at every assignment
that meets the additions (`Meets`), complete for every related value, and total where nothing fails
to have one. Steps compose (`Expresses.bind`) from new variables (`introduce_adds`) and new rows
(`declareRows_adds`).
-/

namespace LinearProgram

open List Assembly

variable {cfg : Config} {m m' m₁ : Model} {s s' : Store} {valid : Assignment → Prop}
  {D : Assignment → ℚ → Prop} {lower upper : Option Number} {v : Variable}
  {rows : List (Except Error Row)} {key : VarKey} {row : Except Error Row}

/-- Names that begin like those of the families the compiler introduces. -/
def Config.IsAuxiliary (cfg : Config) (family : String) : Prop :=
  ∃ rest, family = cfg.auxiliaryWord.text ++ "_" ++ rest

/-! ## Larger models -/

/-- Models that differ in names and counters at most. -/
structure Model.Same (m m' : Model) : Prop where
  columns : m'.columns = m.columns
  constraints : m'.constraints = m.constraints
  families : m'.families = m.families
  objective : m'.objective = m.objective

/-- A model with more auxiliary variables and more rows. -/
structure Extension (cfg : Config) (m m' : Model) : Prop where
  columns : ∃ new, m'.columns = m.columns ++ new
    ∧ ∀ v ∈ new, cfg.IsAuxiliary v.key.family ∧ v.auxiliary = true
  constraints : ∃ new, m'.constraints = m.constraints ++ new
    ∧ ∀ c ∈ new, c.lhs.Formed m' ∧ c.rhs.Formed m'
  families : ∀ family, ¬ cfg.IsAuxiliary family → m'.family? family = m.family? family
  objective : m'.objective = m.objective
  exact : m.ExactBounds → m'.ExactBounds

theorem Model.Same.extension (cfg : Config) {m m' : Model} (same : m.Same m') :
    Extension cfg m m' where
  columns := ⟨[], by simp [same.columns], by simp⟩
  constraints := ⟨[], by simp [same.constraints], by simp⟩
  families family _ := by simp only [Model.family?, same.families]
  objective := same.objective
  exact exact := by
    unfold Model.ExactBounds
    rw [same.columns]
    exact exact

namespace Extension

variable {cfg : Config} {m m₁ m₂ : Model}

theorem refl (cfg : Config) (m : Model) : Extension cfg m m :=
  Model.Same.extension cfg ⟨rfl, rfl, rfl, rfl⟩

section

variable (ext : Extension cfg m m₁)
include ext

theorem mem_columns (mem : v ∈ m.columns) : v ∈ m₁.columns := by
  obtain ⟨new, columns, -⟩ := ext.columns
  rw [columns]
  exact mem_append_left _ mem

theorem declared? (found : m.declared? key = some v) : m₁.declared? key = some v := by
  obtain ⟨new, columns, -⟩ := ext.columns
  rw [Model.declared?] at found ⊢
  rw [columns, find?_append, found]
  rfl

theorem isSome_declared? (declared : (m.declared? key).isSome = true) :
    (m₁.declared? key).isSome = true := by
  obtain ⟨v, found⟩ := Option.isSome_iff_exists.mp declared
  rw [ext.declared? found]
  rfl

theorem declared?_eq (plain : ¬ cfg.IsAuxiliary key.family) :
    m₁.declared? key = m.declared? key := by
  obtain ⟨new, columns, auxiliary⟩ := ext.columns
  rw [Model.declared?, Model.declared?, columns, find?_append]
  have none : new.find? (fun v => v.key.equal key) = none := by
    rw [find?_eq_none]
    intro v mem same
    exact plain (VarKey.family_of_equal same ▸ (auxiliary v mem).1)
  simp [none]

theorem formed {p : Polynomial} (formed : p.Formed m) :
    p.Formed m₁ :=
  formed.mono fun _ => ext.isSome_declared?

end

theorem trans (first : Extension cfg m m₁) (second : Extension cfg m₁ m₂) :
    Extension cfg m m₂ where
  columns := by
    obtain ⟨new, columns, auxiliary⟩ := first.columns
    obtain ⟨newer, columns', auxiliary'⟩ := second.columns
    refine ⟨new ++ newer, by rw [columns', columns, append_assoc], ?_⟩
    intro v mem
    exact (mem_append.mp mem).elim (auxiliary v) (auxiliary' v)
  constraints := by
    obtain ⟨new, rows, formed⟩ := first.constraints
    obtain ⟨newer, rows', formed'⟩ := second.constraints
    refine ⟨new ++ newer, by rw [rows', rows, append_assoc], ?_⟩
    intro c mem
    rcases mem_append.mp mem with old | young
    · exact ⟨second.formed (formed c old).1, second.formed (formed c old).2⟩
    · exact formed' c young
  families family plain := (second.families family plain).trans (first.families family plain)
  objective := second.objective.trans first.objective
  exact exact := second.exact (first.exact exact)

theorem isPrefix (ext : Extension cfg m m₁) :
    m.columns <+: m₁.columns ∧ m.constraints <+: m₁.constraints := by
  obtain ⟨columns, more, -⟩ := ext.columns
  obtain ⟨rows, further, -⟩ := ext.constraints
  exact ⟨⟨columns, more.symm⟩, rows, further.symm⟩

theorem admits (ext : Extension cfg m m₁) {a : Assignment} (admits : m₁.Admits a) :
    m.Admits a :=
  fun v mem => admits v (ext.mem_columns mem)

end Extension

/-! ## Agreement of assignments -/

/-- The second assignment differs from the first only at auxiliary variables that `m` does not
have. -/
structure Agrees (cfg : Config) (m : Model) (a a' : Assignment) : Prop where
  columns : ∀ v ∈ m.columns, a'.value v.key = a.value v.key
  plain : ∀ key : VarKey, ¬ cfg.IsAuxiliary key.family → a'.value key = a.value key

namespace Agrees

variable {cfg : Config} {m m₁ : Model} {a a₁ a₂ : Assignment}

theorem refl (cfg : Config) (m : Model) (a : Assignment) : Agrees cfg m a a :=
  ⟨fun _ _ => rfl, fun _ _ => rfl⟩

theorem trans (first : Agrees cfg m a a₁) (second : Agrees cfg m a₁ a₂) :
    Agrees cfg m a a₂ :=
  ⟨fun v mem => (second.columns v mem).trans (first.columns v mem),
    fun key plain => (second.plain key plain).trans (first.plain key plain)⟩

theorem of_extension (ext : Extension cfg m m₁) (agrees : Agrees cfg m₁ a a₁) :
    Agrees cfg m a a₁ :=
  ⟨fun v mem => agrees.columns v (ext.mem_columns mem), agrees.plain⟩

theorem valueAt (agrees : Agrees cfg m a a₁) {p : Polynomial} (formed : p.Formed m) :
    p.valueAt a₁ = p.valueAt a :=
  formed.valueAt_congr agrees.columns

theorem map_valueAt (agrees : Agrees cfg m a a₁) {ps : List Polynomial}
    (formed : ∀ p ∈ ps, p.Formed m) : ps.map (·.valueAt a₁) = ps.map (·.valueAt a) :=
  map_congr_left fun p mem => agrees.valueAt (formed p mem)

theorem holdsAt (agrees : Agrees cfg m a a₁) {c : Constraint} (left : c.lhs.Formed m)
    (right : c.rhs.Formed m) : c.HoldsAt a₁ ↔ c.HoldsAt a := by
  rw [Constraint.HoldsAt, Constraint.HoldsAt, agrees.valueAt left, agrees.valueAt right]

end Agrees

/-! ## The rows of a step -/

/-- Whether an assignment satisfies the rows that `m'` has beyond those of `m`. -/
def NewRowsHold (m m' : Model) (a : Assignment) : Prop :=
  ∀ c ∈ m'.constraints.drop m.constraints.length, c.HoldsAt a

namespace NewRowsHold

variable {cfg : Config} {m m₁ m₂ : Model} {a : Assignment}

theorem of_same (same : m.Same m₁) (a : Assignment) : NewRowsHold m m₁ a := by
  intro c mem
  rw [same.constraints, drop_length] at mem
  exact absurd mem not_mem_nil

theorem trans_iff (first : Extension cfg m m₁) (second : Extension cfg m₁ m₂) :
    NewRowsHold m m₂ a ↔ NewRowsHold m m₁ a ∧ NewRowsHold m₁ m₂ a := by
  obtain ⟨new, rows, -⟩ := first.constraints
  obtain ⟨newer, rows', -⟩ := second.constraints
  simp only [NewRowsHold, rows', rows, append_assoc, drop_left, mem_append]
  rw [← append_assoc, drop_left]
  exact ⟨fun all => ⟨fun c mem => all c (.inl mem), fun c mem => all c (.inr mem)⟩,
    fun both c mem => mem.elim (both.1 c) (both.2 c)⟩

theorem congr (ext : Extension cfg m m₁) {a' : Assignment}
    (agrees : Agrees cfg m₁ a a') : NewRowsHold m m₁ a' ↔ NewRowsHold m m₁ a := by
  obtain ⟨new, rows, formed⟩ := ext.constraints
  simp only [NewRowsHold, rows, drop_left]
  exact forall₂_congr fun c mem => agrees.holdsAt (formed c mem).1 (formed c mem).2

end NewRowsHold

/-- The variables that `m'` has beyond those of `m`. -/
def newColumns (m m' : Model) : List Variable := m'.columns.drop m.columns.length

/-- The only variable that `m'` may have beyond those of `m` is one of the given kind. -/
def AddsAtMostOne (kind : VariableKind) (m m' : Model) : Prop :=
  newColumns m m' = [] ∨ ∃ v, newColumns m m' = [v] ∧ v.kind = kind

theorem newColumns_self (m : Model) : newColumns m m = [] := drop_length

/-- Whether an assignment meets what `m'` has beyond `m`: the bounds and kinds of its further
variables, and its further rows. -/
structure Meets (m m' : Model) (a : Assignment) : Prop where
  columns : ∀ v ∈ newColumns m m', v.Admits a
  rows : NewRowsHold m m' a

/-- The larger model asks for what the smaller one does, and more of its further variables. -/
theorem Extension.admits_iff (ext : Extension cfg m m₁) {a : Assignment} :
    m₁.Admits a ↔ m.Admits a ∧ ∀ v ∈ newColumns m m₁, v.Admits a := by
  obtain ⟨new, columns, -⟩ := ext.columns
  simp only [Model.Admits, newColumns, columns, drop_left, forall_mem_append]

namespace Meets

variable {cfg : Config} {m m₁ m₂ : Model} {a : Assignment}

theorem of_same (same : m.Same m₁) (a : Assignment) : Meets m m₁ a where
  columns v mem := by
    rw [newColumns, same.columns, drop_length] at mem
    exact absurd mem not_mem_nil
  rows := NewRowsHold.of_same same a

theorem trans_iff (first : Extension cfg m m₁) (second : Extension cfg m₁ m₂) :
    Meets m m₂ a ↔ Meets m m₁ a ∧ Meets m₁ m₂ a := by
  obtain ⟨new, columns, -⟩ := first.columns
  obtain ⟨newer, columns', -⟩ := second.columns
  have split : newColumns m m₂ = newColumns m m₁ ++ newColumns m₁ m₂ := by
    simp only [newColumns, columns', drop_left]
    rw [columns, drop_left, append_assoc, drop_left]
  constructor
  · rintro ⟨admits, rows⟩
    rw [split, forall_mem_append] at admits
    obtain ⟨old, young⟩ := (NewRowsHold.trans_iff first second).mp rows
    exact ⟨⟨admits.1, old⟩, admits.2, young⟩
  · rintro ⟨⟨admits, old⟩, admits', young⟩
    refine ⟨?_, (NewRowsHold.trans_iff first second).mpr ⟨old, young⟩⟩
    rw [split, forall_mem_append]
    exact ⟨admits, admits'⟩

theorem congr (ext : Extension cfg m m₁) {a' : Assignment}
    (agrees : Agrees cfg m₁ a a') (meets : Meets m m₁ a) : Meets m m₁ a' where
  columns v mem := by
    unfold Variable.Admits
    rw [agrees.columns v (mem_of_mem_drop mem)]
    exact meets.columns v mem
  rows := (NewRowsHold.congr ext agrees).mpr meets.rows

end Meets

theorem Extension.admits_of (ext : Extension cfg m m₁) {a a' : Assignment}
    (admits : m.Admits a) (agrees : Agrees cfg m a a') (meets : Meets m m₁ a') : m₁.Admits a' :=
  ext.admits_iff.mpr ⟨admits.congr agrees.columns, meets.columns⟩

/-- The second assignment leaves the variables of `m` as they are in the first and meets what `m'`
has beyond `m`. -/
structure Completes (m m' : Model) (a a' : Assignment) : Prop where
  kept : ∀ v ∈ m.columns, a'.value v.key = a.value v.key
  meets : Meets m m' a'

theorem Completes.map_valueAt {a a' : Assignment} (completes : Completes m m' a a')
    {operands : List Polynomial} (formed : ∀ e ∈ operands, e.Formed m) :
    operands.map (·.valueAt a') = operands.map (·.valueAt a) :=
  map_congr_left fun e mem => (formed e mem).valueAt_congr completes.kept

/-! ## Additions -/

/-- A step from `m` to `m'` whose additions allow exactly the readings in the relation `D`: if it is
`bounded`, at the assignments that respect the bounds and kinds in `m`, else at all. If it is
`free`, the former all have a related reading. -/
structure Expresses (cfg : Config) (bounded free : Prop) (m m' : Model) {β : Type}
    (read : Assignment → β) (D : Assignment → β → Prop) : Prop where
  extension : Extension cfg m m'
  reads : ∀ a a', Agrees cfg m' a a' → read a' = read a
  sound : ∀ a, (bounded → m.Admits a) → Meets m m' a → D a (read a)
  complete : ∀ a v, (bounded → m.Admits a) → D a v →
    ∃ a', Agrees cfg m a a' ∧ Meets m m' a' ∧ read a' = v
  total : free → ∀ a, m.Admits a → ∃ v, D a v

/-- A step whose additions allow the readings in a relation, and no others, at all assignments. -/
abbrev Adds (cfg : Config) (m m' : Model) {β : Type} (read : Assignment → β)
    (D : Assignment → β → Prop) : Prop := Expresses cfg False False m m' read D

/-- A relation that looks at no new variable. -/
def Local (cfg : Config) (m : Model) {β : Type} (D : Assignment → β → Prop) : Prop :=
  ∀ a a' v, Agrees cfg m a a' → (D a' v ↔ D a v)

theorem Local.of_extension {β : Type} {D : Assignment → β → Prop} (isLocal : Local cfg m D)
    (ext : Extension cfg m m₁) : Local cfg m₁ D :=
  fun a a' v agrees => isLocal a a' v (agrees.of_extension ext)

namespace Expresses

variable {cfg : Config} {bounded free : Prop} {m m₁ m₂ : Model} {β γ : Type}
  {read : Assignment → β} {D : Assignment → β → Prop}

theorem of_read (read : Assignment → β) (same : m.Same m₁)
    (reads : ∀ a a', Agrees cfg m a a' → read a' = read a) :
    Expresses cfg bounded free m m₁ read (fun a v => v = read a) where
  extension := same.extension cfg
  reads a a' agrees := reads a a' (agrees.of_extension (same.extension cfg))
  sound _ _ _ := rfl
  complete a _ _ related := ⟨a, Agrees.refl cfg m a, Meets.of_same same a, related.symm⟩
  total _ a _ := ⟨read a, rfl⟩

/-- One step after the other. The second relation may depend on what the first step's reading is. -/
theorem bind {read₁ : Assignment → β} {read₂ : Assignment → γ} {D₁ : Assignment → β → Prop}
    (first : Expresses cfg bounded free m m₁ read₁ D₁) (D₂ : β → Assignment → γ → Prop)
    (second : Expresses cfg bounded free m₁ m₂ read₂ fun a w => D₂ (read₁ a) a w)
    (stable : ∀ u, Local cfg m (D₂ u)) :
    Expresses cfg bounded free m m₂ (fun a => (read₁ a, read₂ a))
      (fun a v => D₁ a v.1 ∧ D₂ v.1 a v.2) where
  extension := first.extension.trans second.extension
  reads a a' agrees := by
    rw [first.reads a a' (agrees.of_extension second.extension), second.reads a a' agrees]
  sound a admits meets := by
    obtain ⟨old, new⟩ := (Meets.trans_iff first.extension second.extension).mp meets
    refine ⟨first.sound a admits old, second.sound a (fun isBounded => ?_) new⟩
    exact first.extension.admits_iff.mpr ⟨admits isBounded, old.columns⟩
  complete a v admits related := by
    obtain ⟨a₁, agrees₁, meets₁, read₁'⟩ := first.complete a v.1 admits related.1
    have later : D₂ (read₁ a₁) a₁ v.2 := by
      rw [read₁']
      exact (stable v.1 a a₁ v.2 agrees₁).mpr related.2
    have admits₁ := fun isBounded => first.extension.admits_of (admits isBounded) agrees₁ meets₁
    obtain ⟨a₂, agrees₂, meets₂, read₂'⟩ := second.complete a₁ v.2 admits₁ later
    refine ⟨a₂, agrees₁.trans (agrees₂.of_extension first.extension), ?_, ?_⟩
    · exact (Meets.trans_iff first.extension second.extension).mpr
        ⟨meets₁.congr first.extension agrees₂, meets₂⟩
    · rw [first.reads a₁ a₂ agrees₂, read₁', read₂']
  total isFree a admits := by
    obtain ⟨u, related⟩ := first.total isFree a admits
    obtain ⟨a₁, agrees₁, meets₁, read₁'⟩ := first.complete a u (fun _ => admits) related
    obtain ⟨w, related'⟩ :=
      second.total isFree a₁ (first.extension.admits_of admits agrees₁ meets₁)
    rw [read₁'] at related'
    exact ⟨(u, w), related, (stable u a a₁ w agrees₁).mp related'⟩

/-- Another description of the same step: what is read is a function of the old reading, and the
relation is the image of the old one. -/
theorem map {read' : Assignment → γ} {D' : Assignment → γ → Prop}
    (base : Expresses cfg bounded free m m₁ read D) (f : β → γ)
    (reading : ∀ a, read' a = f (read a))
    (related : ∀ a, (bounded → m.Admits a) → ∀ w, D' a w ↔ ∃ v, D a v ∧ f v = w) :
    Expresses cfg bounded free m m₁ read' D' where
  extension := base.extension
  reads a a' agrees := by rw [reading, reading, base.reads a a' agrees]
  sound a admits meets :=
    (related a admits _).mpr ⟨read a, base.sound a admits meets, (reading a).symm⟩
  complete a w admits related' := by
    obtain ⟨v, known, rfl⟩ := (related a admits w).mp related'
    obtain ⟨a', agrees, meets, read'⟩ := base.complete a v admits known
    exact ⟨a', agrees, meets, by rw [reading, read']⟩
  total isFree a admits := by
    obtain ⟨v, known⟩ := base.total isFree a admits
    exact ⟨f v, (related a (fun _ => admits) _).mpr ⟨v, known, rfl⟩⟩

theorem congr {D' : Assignment → β → Prop} (base : Expresses cfg bounded free m m₁ read D)
    (related : ∀ a, (bounded → m.Admits a) → ∀ v, D' a v ↔ D a v) :
    Expresses cfg bounded free m m₁ read D' :=
  base.map id (fun _ => rfl) fun a admits w => by simp [related a admits w]

/-- A step that goes on from what the first one reads, which is not read any more. -/
theorem andThen {read' : Assignment → γ} (first : Expresses cfg bounded free m m₁ read D)
    (D' : β → γ → Prop)
    (second : Expresses cfg bounded free m₁ m₂ read' fun a w => D' (read a) w) :
    Expresses cfg bounded free m m₂ read' fun a w => ∃ v, D a v ∧ D' v w := by
  refine (first.bind (fun v _ w => D' v w) second fun _ _ _ _ _ => Iff.rfl).map Prod.snd
    (fun _ => rfl) fun a _ w => ⟨fun ⟨v, both⟩ => ⟨(v, w), both, rfl⟩, ?_⟩
  rintro ⟨⟨v, w⟩, both, rfl⟩
  exact ⟨v, both⟩

/-- A step and then rows, which are a condition on what the step's reading is. -/
theorem restrict (base : Expresses cfg bounded free m m₁ read D)
    (C : β → Assignment → Prop)
    (rows : Expresses cfg bounded free m₁ m₂ (fun _ => ()) fun a _ => C (read a) a)
    (stable : ∀ u a a', Agrees cfg m a a' → (C u a' ↔ C u a)) :
    Expresses cfg bounded free m m₂ read fun a v => D a v ∧ C v a := by
  refine (base.bind (fun u a _ => C u a) rows fun u a a' _ => stable u a a').map Prod.fst
    (fun _ => rfl) fun a _ v => ?_
  constructor
  · exact fun holds => ⟨(v, ()), holds, rfl⟩
  · rintro ⟨⟨v, _⟩, holds, rfl⟩
    exact holds

theorem same_left (same : m.Same m₁) (base : Expresses cfg bounded free m₁ m₂ read D) :
    Expresses cfg bounded free m m₂ read D := by
  have admits : ∀ {a : Assignment}, m.Admits a → m₁.Admits a := by
    unfold Model.Admits
    rw [same.columns]
    exact id
  have meets_iff : ∀ a, Meets m m₂ a ↔ Meets m₁ m₂ a := fun a =>
    (Meets.trans_iff (same.extension cfg) base.extension).trans
      (and_iff_right (Meets.of_same same a))
  refine ⟨(same.extension cfg).trans base.extension, base.reads, fun a old meets => ?_,
    fun a v old related => ?_, fun isFree a old => base.total isFree a (admits old)⟩
  · exact base.sound a (fun isBounded => admits (old isBounded)) ((meets_iff a).mp meets)
  · obtain ⟨a', agrees, meets, reading⟩ :=
      base.complete a v (fun isBounded => admits (old isBounded)) related
    exact ⟨a', agrees.of_extension (same.extension cfg), (meets_iff a').mpr meets, reading⟩

/-- Relations of their own for the members of a list. -/
theorem local_forall₂ {ι : Type} {D : ι → Assignment → ℚ → Prop} {l : List ι}
    (isLocal : ∀ i ∈ l, Local cfg m (D i)) :
    Local cfg m fun a vs => Forall₂ (fun i v => D i a v) l vs := by
  intro a a' vs agrees
  induction l generalizing vs with
  | nil => simp
  | cons i _ ih =>
    rw [forall_mem_cons] at isLocal
    cases vs with
    | nil => simp
    | cons v vs =>
      simp only [forall₂_cons, isLocal.1 a a' v agrees]
      exact and_congr_right fun _ => ih isLocal.2 vs

/-- The polynomials of some steps, one after the other. What each allows is about the models that
they all start from. -/
theorem mapM {ι : Type} {f : ι → Assembly Polynomial} {D : ι → Assignment → ℚ → Prop} {l : List ι}
    {I : Model → Prop} (grows : ∀ {m m'}, I m → Extension cfg m m' → I m')
    (each : ∀ i ∈ l, ∀ s p s', I s.model → (f i).run s = (.ok p, s') →
      p.Formed s'.model ∧ Expresses cfg bounded free s.model s'.model p.valueAt (D i))
    (isLocal : ∀ i ∈ l, ∀ m, I m → Local cfg m (D i)) {s s' : Store} (holds : I s.model)
    {ps : List Polynomial} (ran : (l.mapM f).run s = (.ok ps, s')) :
    (∀ p ∈ ps, p.Formed s'.model)
      ∧ Expresses cfg bounded free s.model s'.model (fun a => ps.map (·.valueAt a))
          fun a vs => Forall₂ (fun i v => D i a v) l vs := by
  induction l generalizing s ps with
  | nil =>
    obtain ⟨rfl, rfl⟩ := run_pure_ok ran
    refine ⟨by simp, ?_⟩
    refine (of_read (fun _ => []) ⟨rfl, rfl, rfl, rfl⟩ fun _ _ _ => rfl).congr ?_
    simp
  | cons i rest ih =>
    rw [mapM_cons] at ran
    obtain ⟨p, s₁, here, ran⟩ := run_bind_ok.mp ran
    obtain ⟨others, s₂, later, done⟩ := run_bind_ok.mp ran
    obtain ⟨rfl, rfl⟩ := run_pure_ok done
    rw [forall_mem_cons] at each isLocal
    obtain ⟨formed, first⟩ := each.1 s p s₁ holds here
    obtain ⟨allFormed, second⟩ := ih each.2 isLocal.2 (grows holds first.extension) later
    refine ⟨forall_mem_cons.mpr ⟨second.extension.formed formed, allFormed⟩, ?_⟩
    have restLocal := local_forall₂ fun j mem => isLocal.2 j mem s.model holds
    refine (first.bind (fun _ a vs => Forall₂ (fun j v => D j a v) rest vs) second
      fun _ => restLocal).map (fun v => v.1 :: v.2) (fun _ => rfl) ?_
    intro a _ vs
    cases vs with
    | nil | cons => simp

end Expresses

/-- A step from `m` to `m'` whose additions allow exactly the readings in the relation `D` at the
assignments in `valid`. Elsewhere they may allow others. -/
def AddsWhere (cfg : Config) (valid : Assignment → Prop) (m m' : Model) {β : Type}
    (read : Assignment → β) (D : Assignment → β → Prop) : Prop :=
  ∃ D', Adds cfg m m' read D' ∧ ∀ a, valid a → ∀ v, D' a v ↔ D a v

theorem AddsWhere.of_polynomial {p : Polynomial} (formed : p.Formed m)
    (related : ∀ a, valid a → ∀ v, D a v ↔ v = p.valueAt a) :
    AddsWhere cfg valid m m p.valueAt D :=
  ⟨_, .of_read p.valueAt ⟨rfl, rfl, rfl, rfl⟩ fun _ _ agrees => agrees.valueAt formed,
    fun a ok v => (related a ok v).symm⟩

theorem AddsWhere.extension {β : Type} {read : Assignment → β} {D : Assignment → β → Prop}
    (added : AddsWhere cfg valid m m' read D) : Extension cfg m m' := by
  obtain ⟨_, exactly, -⟩ := added
  exact exactly.extension

/-- The values of a polynomial at the completions of an assignment. -/
def attainable (m m' : Model) (r : Polynomial) (a : Assignment) : Set ℚ :=
  {v | ∃ a', Completes m m' a a' ∧ r.valueAt a' = v}

/-- The attainable values are those that the additions allow, if these depend on the variables of
`m` only. -/
theorem Adds.attainable_eq {r : Polynomial} (added : Adds cfg m m' r.valueAt D) {a : Assignment}
    (stable : ∀ a', (∀ v ∈ m.columns, a'.value v.key = a.value v.key) → ∀ v, D a' v → D a v) :
    attainable m m' r a = {v | D a v} := by
  ext v
  constructor
  · rintro ⟨a', completes, rfl⟩
    exact stable a' completes.kept _ (added.sound a' False.elim completes.meets)
  · intro related
    obtain ⟨a', agrees, meets, value⟩ := added.complete a v False.elim related
    exact ⟨a', ⟨agrees.columns, meets⟩, value⟩

theorem AddsWhere.attainable_eq {r : Polynomial} (added : AddsWhere cfg valid m m' r.valueAt D)
    {a : Assignment} (ok : valid a)
    (stable : ∀ a', (∀ v ∈ m.columns, a'.value v.key = a.value v.key) →
      valid a' ∧ ∀ v, D a' v → D a v) : attainable m m' r a = {v | D a v} := by
  obtain ⟨D', exactly, same⟩ := added
  have allowed : attainable m m' r a = {v | D' a v} := by
    refine exactly.attainable_eq fun a' kept v related => ?_
    obtain ⟨ok', back⟩ := stable a' kept
    exact (same a ok v).mpr (back v ((same a' ok' v).mp related))
  rw [allowed]
  ext v
  exact same a ok v

/-! ## New variables -/

/-- The assignment that gives a numbered instance another value. -/
def Assignment.update (a : Assignment) (family : String) (index : List Nat) (q : ℚ) :
    Assignment where
  value key := if key.equal (VarKey.numbered family index) then q else a.value key
  respects same := by
    rw [VarKey.equal_numbered_congr same]
    split
    · rfl
    · exact a.respects same

theorem VarKey.isKey_numbered (family : String) (index : List Nat) :
    (VarKey.numbered family index).isKey = true := by
  unfold VarKey.isKey numbered
  induction index with
  | nil => rfl
  | cons _ _ ih => exact ih

theorem Model.find?_addIndex {family other : String} (different : other ≠ family)
    (index : List Value) (families : List (String × List (List Value))) :
    (Model.addIndex family index families).find? (fun entry => entry.1 == other)
      = families.find? fun entry => entry.1 == other := by
  induction families with
  | nil => simp [addIndex, Ne.symm different]
  | cons entry _ ih =>
    by_cases same : entry.1 = family
    · simp [addIndex, same, Ne.symm different]
    · simp only [addIndex, beq_iff_eq, same, ↓reduceIte, find?_cons, ih]

theorem Extension.addVariable (auxiliary : cfg.IsAuxiliary v.key.family)
    (flag : v.auxiliary = true) (exact : v.ExactBounds) : Extension cfg m (m.addVariable v) where
  columns := ⟨[v], rfl, forall_mem_singleton.mpr ⟨auxiliary, flag⟩⟩
  constraints := ⟨[], (append_nil _).symm, by simp⟩
  families family plain := by
    have different : family ≠ v.key.family := fun same => plain (same ▸ auxiliary)
    simp only [Model.family?, Model.addVariable, Model.find?_addIndex different]
  objective := rfl
  exact bounds u mem := by
    rcases mem_append.mp mem with old | new
    · exact bounds u old
    · rw [mem_singleton.mp new]
      exact exact

/-- A new variable can take every value that its bounds and its kind allow. -/
theorem Adds.addVariable {family : String} {index : List Nat}
    (key : v.key = VarKey.numbered family index) (auxiliary : cfg.IsAuxiliary family)
    (flag : v.auxiliary = true) (exact : v.ExactBounds) (fresh : m.declared? v.key = none) :
    Adds cfg m (m.addVariable v) (fun a => a.value v.key) (fun _ q => v.Allows q) where
  extension := Extension.addVariable (by rw [key]; exact auxiliary) flag exact
  reads a a' agrees := agrees.columns v (mem_append_right _ (mem_singleton.mpr rfl))
  sound a _ meets := meets.columns v (by simp [newColumns, Model.addVariable])
  total := False.elim
  complete a q _ allowed := by
    have old : ∀ u ∈ m.columns, (a.update family index q).value u.key = a.value u.key := by
      intro u mem
      have different : u.key.equal v.key = false :=
        Bool.eq_false_iff.mpr (find?_eq_none.mp fresh u mem)
      simp [Assignment.update, ← key, different]
    have new : (a.update family index q).value v.key = q := by
      have self := VarKey.equal_self (VarKey.isKey_numbered family index)
      simp [Assignment.update, key, self]
    refine ⟨a.update family index q, ⟨old, ?_⟩, ⟨?_, ?_⟩, new⟩
    · intro other plain
      have different : other.equal (VarKey.numbered family index) = false := by
        have families : other.family ≠ family := fun same => plain (same ▸ auxiliary)
        simp [VarKey.equal, VarKey.numbered, families]
      simp [Assignment.update, different]
    · simp only [newColumns, Model.addVariable, drop_left, forall_mem_singleton]
      unfold Variable.Admits
      rw [new]
      exact allowed
    · intro c mem
      simp [Model.addVariable] at mem

namespace Linearization

open Assembly

variable {cfg : Config} {family : String} {index : List Nat} {s s' : Store} {p : Polynomial}

theorem checkGiven_ok {bound result : Option Number} (given : checkGiven bound = .ok result) :
    result = bound := by
  cases bound with
  | none =>
    cases given
    rfl
  | some x =>
    obtain ⟨y, checked, given⟩ := bind_eq_ok.mp given
    cases given
    cases x with
    | bool => exact absurd checked (raise_ne_ok _ _)
    | int =>
      cases checked
      rfl
    | float =>
      cases checked
      rfl

theorem introduce_ok {kind : VariableKind}
    (ran : (introduce cfg family index kind lower upper).run s = (.ok p, s')) :
    ∃ v : Variable, v.key = VarKey.numbered family index ∧ v.kind = kind ∧ v.lower = lower
      ∧ v.upper = upper ∧ v.auxiliary = true ∧ p = Polynomial.ofKey v.key
      ∧ s.model.Accepts cfg v ∧ s'.model = s.model.addVariable v := by
  obtain ⟨before, after, entry, inner, exit⟩ := run_transaction_ok ran
  obtain ⟨lower', given, inner⟩ := run_lift_bind_ok.mp inner
  obtain ⟨upper', given', inner⟩ := run_lift_bind_ok.mp inner
  obtain ⟨_, -, inner⟩ := run_lift_bind_ok.mp inner
  obtain ⟨v, s₄, added, inner⟩ := run_bind_ok.mp inner
  obtain ⟨rfl, rfl⟩ := run_pure_ok inner
  obtain ⟨⟨name, rfl⟩, accepted, model⟩ := addVariable_ok added
  refine ⟨_, rfl, rfl, checkGiven_ok given, checkGiven_ok given', rfl, rfl, ?_, ?_⟩
  · rw [← entry]
    exact accepted
  · rw [exit, model, entry]

/-- A new variable takes exactly the values that its bounds and kind allow. -/
theorem introduce_adds {kind : VariableKind} {allowed : ℚ → Prop}
    (auxiliary : cfg.IsAuxiliary family)
    (bounds : ∀ v : Variable, v.kind = kind → v.lower = lower → v.upper = upper →
      v.ExactBounds ∧ ∀ q, v.Allows q ↔ allowed q)
    (ran : (introduce cfg family index kind lower upper).run s = (.ok p, s')) :
    p.Formed s'.model ∧ Adds cfg s.model s'.model p.valueAt (fun _ q => allowed q) := by
  obtain ⟨v, key, isKind, isLower, isUpper, flag, rfl, accepted, model⟩ := introduce_ok ran
  obtain ⟨exact, allows⟩ := bounds v isKind isLower isUpper
  rw [model]
  constructor
  · refine Polynomial.formed_ofKey ?_
    have self : v.key.equal v.key = true :=
      VarKey.equal_self (by rw [key]; exact VarKey.isKey_numbered family index)
    simp [Model.declared?, Model.addVariable, find?_append, self]
  · have added := Adds.addVariable key auxiliary flag exact accepted.fresh
    refine added.map id (fun a => Polynomial.valueAt_ofKey v.key a) ?_
    intro a _ q
    simp [allows]

theorem introduce_binary_adds (auxiliary : cfg.IsAuxiliary family)
    (ran : (introduce cfg family index .binary none none).run s = (.ok p, s')) :
    p.Formed s'.model ∧ Adds cfg s.model s'.model p.valueAt (fun _ q => q = 0 ∨ q = 1) := by
  refine introduce_adds auxiliary ?_ ran
  intro v kind _ _
  exact ⟨v.exactBounds_of_binary kind, v.allows_binary kind⟩

/-- A continuous variable with integer or missing bounds can take every value between them. -/
theorem introduce_continuous_adds (auxiliary : cfg.IsAuxiliary family)
    (isLower : (lower.getD .negInfinity).IsBound true)
    (isUpper : (upper.getD .infinity).IsBound false)
    (ran : (introduce cfg family index .continuous lower upper).run s = (.ok p, s')) :
    p.Formed s'.model ∧ Adds cfg s.model s'.model p.valueAt (fun _ q =>
      (lower.getD .negInfinity).AtMost q ∧ (upper.getD .infinity).AtLeast q) := by
  refine introduce_adds auxiliary ?_ ran
  intro v kind hasLower hasUpper
  have bounds : v.bounds = (lower.getD .negInfinity, upper.getD .infinity) := by
    simp only [Variable.bounds, kind, hasLower, hasUpper]
  refine ⟨⟨by rw [bounds]; exact isLower, by rw [bounds]; exact isUpper⟩, ?_⟩
  intro q
  constructor
  · rintro ⟨below, above, -⟩
    rw [bounds] at below above
    exact ⟨below, above⟩
  · rintro ⟨below, above⟩
    refine ⟨?_, ?_, ?_⟩
    · rw [bounds]
      exact below
    · rw [bounds]
      exact above
    · rw [kind]
      trivial

theorem introduce_between_adds {l u : Int} (auxiliary : cfg.IsAuxiliary family)
    (ran : (introduce cfg family index .continuous (some (.int l)) (some (.int u))).run s
      = (.ok p, s')) :
    p.Formed s'.model
      ∧ Adds cfg s.model s'.model p.valueAt (fun _ q => (l : ℚ) ≤ q ∧ q ≤ u) := by
  obtain ⟨formed, added⟩ :=
    introduce_continuous_adds auxiliary (.inl ⟨l, rfl⟩) (.inl ⟨u, rfl⟩) ran
  exact ⟨formed, added.congr fun _ _ _ => and_congr Number.atMost_int.symm Number.atLeast_int.symm⟩

/-- A variable that is to be nonnegative can take all such values. -/
theorem introduce_nonneg_adds (auxiliary : cfg.IsAuxiliary family)
    (ran : (introduce cfg family index .continuous (some (.int 0)) none).run s = (.ok p, s')) :
    p.Formed s'.model ∧ Adds cfg s.model s'.model p.valueAt (fun _ q => 0 ≤ q) := by
  obtain ⟨formed, added⟩ := introduce_continuous_adds auxiliary (.inl ⟨0, rfl⟩) (.inr rfl) ran
  refine ⟨formed, added.congr fun _ _ q => ?_⟩
  rw [Option.getD_some, Number.atMost_int, Int.cast_zero]
  exact (and_iff_left (Number.atLeast_infinity q)).symm

end Linearization

/-! ## New rows -/

theorem Extension.addConstraint {c : Constraint} (counters : List (String × Nat))
    (left : c.lhs.Formed m) (right : c.rhs.Formed m) :
    Extension cfg m { m.addConstraint c with counters } where
  columns := ⟨[], (append_nil _).symm, by simp⟩
  constraints := ⟨[c], rfl,
    forall_mem_singleton.mpr ⟨left.mono fun _ => id, right.mono fun _ => id⟩⟩
  families _ _ := rfl
  objective := rfl
  exact exact := exact

/-- A new row is a condition on the variables so far. One that holds everywhere is left out. -/
theorem Assembly.addConstraint_adds {name : Value} {lhs rhs : Polynomial} {rel : Relation}
    {desc : Value} {r : Option Constraint} (left : lhs.Formed s.model)
    (right : rhs.Formed s.model)
    (ran : (addConstraint cfg name lhs rel rhs desc).run s = (.ok r, s')) :
    Adds cfg s.model s'.model (fun _ => ())
      (fun a _ => rel.Relates (lhs.valueAt a) (rhs.valueAt a)) := by
  obtain ⟨difference, minus, outcome⟩ := addConstraint_cases ran
  rcases outcome with ⟨constant, holds, model⟩ | ⟨-, c, stored⟩
  · -- the difference of the sides is a constant in the relation to zero
    have same : s.model.Same s'.model := by
      rw [model]
      exact ⟨rfl, rfl, rfl, rfl⟩
    refine (Expresses.of_read (fun _ => ()) same fun _ _ _ => rfl).congr ?_
    intro a _ _
    obtain ⟨formed, values⟩ := Polynomial.sub_ok left right minus
    obtain ⟨n, isConstant⟩ := formed.constant
    have value := values a
    rw [Polynomial.valueAt_of_isConstant constant, isConstant, Number.toRat_int] at value
    rw [isConstant, Relation.holds_int] at holds
    refine iff_of_true ?_ rfl
    cases rel with
    | equal => exact sub_eq_zero.mp (value.symm.trans holds)
    | atMost => exact sub_nonpos.mp (value ▸ holds)
    | atLeast => exact sub_nonneg.mp (value ▸ holds)
  · obtain ⟨rfl, rfl, rfl, -, -, -, ⟨counters, model⟩, -⟩ := stored
    have ext : Extension cfg s.model s'.model := by
      rw [model]
      exact Extension.addConstraint counters left right
    have row : ∀ a, Meets s.model s'.model a ↔ c.HoldsAt a := by
      intro a
      rw [model]
      have rows : NewRowsHold s.model { s.model.addConstraint c with counters } a
          ↔ c.HoldsAt a := by
        simp [NewRowsHold, Model.addConstraint]
      exact ⟨fun meets => rows.mp meets.rows,
        fun holds => ⟨by simp [newColumns, Model.addConstraint], rows.mpr holds⟩⟩
    refine ⟨ext, fun _ _ _ => rfl, fun a _ meets => (row a).mp meets, ?_, False.elim⟩
    intro a _ _ holds
    exact ⟨a, Agrees.refl cfg _ a, (row a).mpr holds, rfl⟩

namespace Linearization

open Assembly

variable {cfg : Config} {family : String} {n : Nat} {m : Model}

def Row.HoldsAt (r : Row) (a : Assignment) : Prop :=
  r.relation.Relates (r.lhs.valueAt a) r.rhs.toRat

/-- A row that, once it is computed, states a condition on the variables of a model. -/
def States (m : Model) (row : Except Error Row) (C : Assignment → Prop) : Prop :=
  ∀ r, row = .ok r → r.lhs.Formed m ∧ (∃ k : Int, r.rhs = .int k) ∧ ∀ a, r.HoldsAt a ↔ C a

/-- Rows that together state a condition. -/
def StatesAll (m : Model) : List (Except Error Row) → (Assignment → Prop) → Prop
  | [], C => ∀ a, C a
  | row :: rows, C => ∃ C₁ C₂, States m row C₁ ∧ StatesAll m rows C₂ ∧ ∀ a, C a ↔ C₁ a ∧ C₂ a

namespace StatesAll

variable {rows rows' : List (Except Error Row)} {C C' : Assignment → Prop}

theorem congr (states : StatesAll m rows C) (same : ∀ a, C' a ↔ C a) : StatesAll m rows C' := by
  cases rows with
  | nil => exact fun a => (same a).mpr (states a)
  | cons =>
    obtain ⟨C₁, C₂, first, rest, split⟩ := states
    exact ⟨C₁, C₂, first, rest, fun a => (same a).trans (split a)⟩

theorem cons (first : States m row C) (rest : StatesAll m rows C') :
    StatesAll m (row :: rows) fun a => C a ∧ C' a :=
  ⟨C, C', first, rest, fun _ => Iff.rfl⟩

theorem single (states : States m row C) : StatesAll m [row] C :=
  ⟨C, fun _ => True, states, fun _ => trivial, fun _ => by rw [and_true]⟩

theorem append (left : StatesAll m rows C) (right : StatesAll m rows' C') :
    StatesAll m (rows ++ rows') fun a => C a ∧ C' a := by
  induction rows generalizing C with
  | nil => exact right.congr fun a => by simp [left a]
  | cons _ _ ih =>
    obtain ⟨C₁, C₂, first, rest, split⟩ := left
    refine (cons first (ih rest)).congr fun a => ?_
    rw [split a, and_assoc]

theorem of_extension (states : StatesAll m rows C) (ext : Extension cfg m m₁) :
    StatesAll m₁ rows C := by
  induction rows generalizing C with
  | nil => exact states
  | cons _ _ ih =>
    obtain ⟨C₁, C₂, first, rest, split⟩ := states
    refine ⟨C₁, C₂, ?_, ih rest, split⟩
    intro r computed
    obtain ⟨formed, right, holds⟩ := first r computed
    exact ⟨ext.formed formed, right, holds⟩

/-- What computed rows state depends on the variables of the model only. -/
theorem isLocal (states : StatesAll m rows C) (computed : ∀ row ∈ rows, ∃ r, row = .ok r) :
    Local cfg m fun (a : Assignment) (_ : Unit) => C a := by
  intro a a' _ agrees
  induction rows generalizing C with
  | nil => exact iff_of_true (states a') (states a)
  | cons row _ ih =>
    obtain ⟨C₁, C₂, first, rest, split⟩ := states
    obtain ⟨r, isRow⟩ := computed row mem_cons_self
    obtain ⟨formed, -, holds⟩ := first r isRow
    have tail := ih rest fun row mem => computed row (mem_cons_of_mem _ mem)
    simp only at tail ⊢
    rw [split a, split a', tail, ← holds, ← holds, Row.HoldsAt, Row.HoldsAt,
      agrees.valueAt formed]

end StatesAll

theorem computed_of_declareRows {u : Unit}
    (ran : (declareRows cfg family n rows).run s = (.ok u, s')) :
    ∀ row ∈ rows, ∃ r, row = .ok r := by
  induction rows generalizing s with
  | nil => simp
  | cons _ _ ih =>
    obtain ⟨_, s₁, here, later⟩ := run_bind_ok.mp ran
    obtain ⟨r, s₂, lifted, -⟩ := run_bind_ok.mp here
    intro row mem
    rcases mem_cons.mp mem with rfl | tail
    · exact ⟨r, (run_lift_ok.mp lifted).1⟩
    · exact ih later row tail

/-- Declared rows are the condition they state. -/
theorem declareRows_adds {C : Assignment → Prop} {u : Unit} (states : StatesAll s.model rows C)
    (ran : (declareRows cfg family n rows).run s = (.ok u, s')) :
    Adds cfg s.model s'.model (fun _ => ()) (fun a _ => C a) := by
  induction rows generalizing s C with
  | nil =>
    obtain ⟨-, rfl⟩ := run_pure_ok ran
    refine (Expresses.of_read (fun _ => ()) ⟨rfl, rfl, rfl, rfl⟩ fun _ _ _ => rfl).congr ?_
    intro a _ _
    exact iff_of_true (states a) rfl
  | cons _ _ ih =>
    obtain ⟨C₁, C₂, first, rest, split⟩ := states
    obtain ⟨_, s₁, here, later⟩ := run_bind_ok.mp ran
    obtain ⟨r, computed, here⟩ := run_lift_bind_ok.mp here
    obtain ⟨_, s₃, declared, here⟩ := run_bind_ok.mp here
    obtain ⟨-, rfl⟩ := run_pure_ok here
    obtain ⟨formed, ⟨k, right⟩, holds⟩ := first r computed
    rw [right] at declared
    have one := addConstraint_adds formed (Polynomial.formed_const _ k) declared
    have all := ih (rest.of_extension one.extension) later
    have stable : Local cfg s.model fun (a : Assignment) (_ : Unit) => C₂ a :=
      rest.isLocal (computed_of_declareRows later)
    refine (one.bind (fun _ a _ => C₂ a) all fun _ => stable).map
      (fun _ => ()) (fun _ => rfl) ?_
    intro a _ _
    have head : C₁ a ↔ r.relation.Relates (r.lhs.valueAt a)
        ((Polynomial.const (.int k)).valueAt a) := by
      rw [← holds a, Row.HoldsAt, right, Polynomial.valueAt_const]
    simp [split, head]

end Linearization

end LinearProgram
