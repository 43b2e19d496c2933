import LinearProgram.Proofs.Additions

/-!
# Realizations

A step realizes a relation if it expresses it where the assignments respect all bounds and kinds
(`Realizes.reading`, `Realizes.extend`).
-/

namespace LinearProgram

open List

/-! ## Realizations -/

/-- A step from `m` to `m'` that captures the relation `D` exactly in what `read` gives. -/
abbrev Realizes (cfg : Config) (free : Prop) (m m' : Model) {β : Type}
    (read : Assignment → β) (D : Assignment → β → Prop) : Prop :=
  Expresses cfg True free m m' read D

namespace Realizes

variable {cfg : Config} {free : Prop} {m m₁ : Model} {β : Type} {read : Assignment → β}
  {D : Assignment → β → Prop} {a : Assignment}

/-- What is read at an assignment that the larger model and its new rows allow is related. -/
theorem reading (realizes : Realizes cfg free m m₁ read D) (admits : m₁.Admits a)
    (added : NewRowsHold m m₁ a) : D a (read a) := by
  obtain ⟨old, new⟩ := realizes.extension.admits_iff.mp admits
  exact realizes.sound a (fun _ => old) ⟨new, added⟩

/-- Whatever is related at an assignment that the smaller model allows is read at an extension of it
to the new variables that satisfies the new rows. -/
theorem extend (realizes : Realizes cfg free m m₁ read D) {v : β} (admits : m.Admits a)
    (related : D a v) :
    ∃ a', Agrees cfg m a a' ∧ m₁.Admits a' ∧ NewRowsHold m m₁ a' ∧ read a' = v := by
  obtain ⟨a', agrees, meets, isRead⟩ := realizes.complete a v (fun _ => admits) related
  exact ⟨a', agrees, realizes.extension.admits_of admits agrees meets, meets.rows, isRead⟩

theorem of_adds (added : Adds cfg m m₁ read D) : Realizes cfg False m m₁ read D :=
  ⟨added.extension, added.reads, fun a _ => added.sound a False.elim,
    fun a v _ => added.complete a v False.elim, False.elim⟩

/-- A step built from variables and rows, whose relation has a value everywhere. -/
theorem of_blocks (base : Realizes cfg False m m₁ read D)
    (total : free → ∀ a, m.Admits a → ∃ v, D a v) : Realizes cfg free m m₁ read D :=
  { base with total }

/-- What additions allow where they should is realized, if that is at every admitted assignment. -/
theorem of_addsWhere {valid : Assignment → Prop} (added : AddsWhere cfg valid m m₁ read D)
    (admitted : ∀ a, m.Admits a → valid a) (total : free → ∀ a, m.Admits a → ∃ v, D a v) :
    Realizes cfg free m m₁ read D := by
  obtain ⟨D', exactly, same⟩ := added
  refine of_blocks ((of_adds exactly).congr fun a admits v => ?_) total
  exact (same a (admitted a (admits trivial)) v).symm

/-- A step whose relation has a value everywhere is one whose relation may not. -/
theorem relax (base : Realizes cfg free m m₁ read D) : Realizes cfg False m m₁ read D :=
  { base with total := False.elim }

end Realizes

theorem Assembly.addConstraint_realizes {cfg : Config} {name : Value} {lhs rhs : Polynomial}
    {rel : Relation} {desc : Value} {s s' : Store} {r : Option Constraint}
    (left : lhs.Formed s.model) (right : rhs.Formed s.model)
    (ran : (addConstraint cfg name lhs rel rhs desc).run s = (.ok r, s')) :
    Realizes cfg False s.model s'.model (fun _ => ())
      (fun a _ => rel.Relates (lhs.valueAt a) (rhs.valueAt a)) :=
  .of_adds (addConstraint_adds left right ran)

/-! ## Loops -/

theorem forall₂_singleton_left_iff {α β : Type} {R : α → β → Prop} {x : α} {l : List β} :
    Forall₂ R [x] l ↔ ∃ y, R x y ∧ l = [y] := by
  constructor
  · rintro (_ | ⟨here, ⟨⟩⟩)
    exact ⟨_, here, rfl⟩
  · rintro ⟨y, here, rfl⟩
    exact .cons here .nil

/-- A step that, wherever it succeeds above `m₀`, captures one and the same relation. -/
def Yields (cfg : Config) (free : Prop) (m₀ : Model) (x : Assembly Polynomial)
    (D : Assignment → ℚ → Prop) : Prop :=
  ∀ s p s', s.model.ExactBounds → Extension cfg m₀ s.model → x.run s = (.ok p, s') →
    p.Formed s'.model ∧ Realizes cfg free s.model s'.model p.valueAt D

namespace Yields

open Assembly

variable {cfg : Config} {free : Prop} {m₀ : Model} {ι : Type} {f : ι → Assembly Polynomial}
  {D : ι → Assignment → ℚ → Prop} {l : List ι} {s s' : Store}

section

variable (each : ∀ i ∈ l, Yields cfg free m₀ (f i) (D i))
  (isLocal : ∀ i ∈ l, Local cfg m₀ (D i)) (exact : s.model.ExactBounds)
  (ext : Extension cfg m₀ s.model)
include each isLocal exact ext

theorem mapM {ps : List Polynomial} (ran : (l.mapM f).run s = (.ok ps, s')) :
    (∀ p ∈ ps, p.Formed s'.model)
      ∧ Realizes cfg free s.model s'.model (fun a => ps.map (·.valueAt a))
          (fun a vs => Forall₂ (fun i v => D i a v) l vs) := by
  refine Expresses.mapM (I := fun m => m.ExactBounds ∧ Extension cfg m₀ m) ?_ ?_ ?_
    ⟨exact, ext⟩ ran
  · exact fun holds grown => ⟨grown.exact holds.1, holds.2.trans grown⟩
  · exact fun i mem s p s' holds => each i mem s p s' holds.1 holds.2
  · exact fun i mem m holds => (isLocal i mem).of_extension holds.2

theorem foldlM_add {total p : Polynomial} (formed : total.Formed s.model)
    (ran : (l.foldlM (fun (total : Polynomial) i => do total.add (← f i)) total).run s
      = (.ok p, s')) :
    p.Formed s'.model ∧ Realizes cfg free s.model s'.model p.valueAt
      (fun a v => ∃ vs, Forall₂ (fun i v => D i a v) l vs
        ∧ v = total.valueAt a + vs.sum) := by
  induction l generalizing s total with
  | nil =>
    obtain ⟨rfl, rfl⟩ := run_pure_ok ran
    refine ⟨formed, ?_⟩
    refine (Expresses.of_read total.valueAt ⟨rfl, rfl, rfl, rfl⟩
      fun a a' agrees => agrees.valueAt formed).congr ?_
    simp
  | cons i rest ih =>
    rw [foldlM_cons] at ran
    obtain ⟨next, s₁, here, later⟩ := run_bind_ok.mp ran
    obtain ⟨q, s₂, compiled, here⟩ := run_bind_ok.mp here
    obtain ⟨added, rfl⟩ := run_lift_ok.mp here
    obtain ⟨formedQ, first⟩ := each i mem_cons_self s q s₂ exact ext compiled
    obtain ⟨formedNext, values⟩ :=
      Polynomial.add_ok (first.extension.formed formed) formedQ added
    have restLocal : ∀ j ∈ rest, Local cfg m₀ (D j) :=
      fun j mem => isLocal j (mem_cons_of_mem _ mem)
    obtain ⟨formedP, second⟩ := ih (fun j mem => each j (mem_cons_of_mem _ mem))
      restLocal (first.extension.exact exact) (ext.trans first.extension) formedNext later
    refine ⟨formedP, ?_⟩
    -- the total so far is a polynomial over the old variables plus what the first step reads
    have second' : Realizes cfg free s₂.model s'.model p.valueAt fun a w =>
        ∃ vs, Forall₂ (fun j v => D j a v) rest vs
          ∧ w = total.valueAt a + q.valueAt a + vs.sum :=
      second.congr fun a _ w => by simp only [values a]
    refine (first.bind (fun u a w => ∃ vs, Forall₂ (fun j v => D j a v) rest vs
        ∧ w = total.valueAt a + u + vs.sum) second' ?_).map Prod.snd (fun _ => rfl) ?_
    · intro u a a' w agrees
      have others := (Expresses.local_forall₂ restLocal).of_extension ext
      simp only [others a a' _ agrees, agrees.valueAt formed]
    · intro a _ w
      constructor
      · rintro ⟨vs, related, rfl⟩
        obtain ⟨v, rest', here, there, rfl⟩ := forall₂_cons_left_iff.mp related
        refine ⟨(v, total.valueAt a + v + rest'.sum), ⟨here, rest', there, rfl⟩, ?_⟩
        rw [sum_cons]
        ring
      · rintro ⟨⟨v, w'⟩, ⟨here, rest', there, total'⟩, rfl⟩
        refine ⟨v :: rest', Forall₂.cons here there, ?_⟩
        rw [sum_cons]
        dsimp only at total' ⊢
        rw [total']
        ring

end

end Yields

end LinearProgram
