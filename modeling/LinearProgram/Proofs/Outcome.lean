import Mathlib.Data.List.Forall2
import LinearProgram.Error

/-!
# How computations end

`Ends post allowed` says that every result of a computation has the property `post`, and every
failure the property `allowed`. It is proved along a `do` block, one `Ends.bind` for each line.
-/

namespace LinearProgram

open List

/-- How a computation may end: in a result with one property, or in a failure with another. -/
def Ends {α : Type} (post : α → Prop) (allowed : Error → Prop) : Except Error α → Prop
  | .ok a => post a
  | .error e => allowed e

/-- A computation whose failures all have a property. -/
abbrev FailsOnly {α : Type} (allowed : Error → Prop) (x : Except Error α) : Prop :=
  Ends (fun _ => True) allowed x

/-- A computation whose results all have a property. -/
abbrev Gives {α : Type} (post : α → Prop) (x : Except Error α) : Prop := Ends post (fun _ => True) x

section

variable {α β σ : Type} {post post' : α → Prop} {next : β → Prop} {allowed allowed' : Error → Prop}
  {x : Except Error α} {l : List α} {f : α → Except Error β} {good : α → β → Prop}

@[simp] theorem ends_ok {a : α} : Ends post allowed (.ok a) ↔ post a := Iff.rfl

@[simp] theorem ends_pure {a : α} : Ends post allowed (pure a) ↔ post a := Iff.rfl

@[simp] theorem ends_error {e : Error} : Ends post allowed (.error e) ↔ allowed e := Iff.rfl

@[simp] theorem ends_breakDown {breakdown : Breakdown} :
    Ends post allowed (breakDown breakdown) ↔ allowed (.broken breakdown) := Iff.rfl

/-- A cause is raised as itself, or as the breakdown that its message has no written form. -/
theorem Ends.raise {cause : Cause}
    (worded : cause.message?.isSome = true → allowed (.refused cause))
    (wordless : cause.message? = none → allowed (.broken .unsupported)) :
    Ends post allowed (raise cause) := by
  rw [LinearProgram.raise, ends_error]
  split
  · exact worded ‹_›
  · exact wordless (Option.not_isSome_iff_eq_none.mp ‹_›)

theorem Ends.mono (ends : Ends post allowed x) (result : ∀ a, post a → post' a)
    (failure : ∀ e, allowed e → allowed' e) : Ends post' allowed' x := by
  cases x with
  | ok a => exact result a ends
  | error e => exact failure e ends

/-- Only the results of a computation that has them are at issue. -/
theorem Ends.bind (first : Ends post allowed x)
    (rest : ∀ a, x = .ok a → post a → Ends next allowed (f a)) : Ends next allowed (x >>= f) := by
  cases x with
  | ok a => exact rest a rfl first
  | error => exact first

theorem Ends.map {f : α → β} (ends : Ends (fun a => next (f a)) allowed x) :
    Ends next allowed (f <$> x) := by
  cases x with
  | ok | error => exact ends

theorem Ends.of_ok (ends : Ends post allowed x) {a : α} (succeeded : x = .ok a) : post a := by
  rw [succeeded] at ends
  exact ends

theorem Ends.of_error (ends : Ends post allowed x) {e : Error} (failed : x = .error e) :
    allowed e := by
  rw [failed] at ends
  exact ends

theorem Ends.failsOnly (ends : Ends post allowed x) : FailsOnly allowed x :=
  ends.mono (fun _ _ => trivial) fun _ => id

theorem gives_any (x : Except Error α) : Gives (fun _ => True) x := by
  cases x with
  | ok | error => trivial

theorem gives_iff : Gives post x ↔ ∀ a, x = .ok a → post a := by
  cases x with
  | ok | error => simp

/-- Results are looked at apart from failures. -/
theorem FailsOnly.ends (fails : FailsOnly allowed x) (results : ∀ a, x = .ok a → post a) :
    Ends post allowed x := by
  cases x with
  | ok a => exact results a rfl
  | error => exact fails

/-- A list is read item by item; each result belongs to an item. -/
theorem Ends.mapM (each : ∀ a ∈ l, Ends (good a) allowed (f a)) :
    Ends (Forall₂ good l) allowed (l.mapM f) := by
  induction l with
  | nil => exact Forall₂.nil
  | cons _ _ ih =>
    rw [forall_mem_cons] at each
    rw [mapM_cons]
    refine each.1.bind fun b _ isGood => ?_
    exact (ih each.2).bind fun bs _ areGood => Forall₂.cons isGood areGood

/-- What holds of each result that an item gives holds down the list. -/
theorem forall₂_of_mapM {results : List β} (listed : l.mapM f = .ok results)
    (each : ∀ a ∈ l, ∀ b, f a = .ok b → good a b) : Forall₂ good l results :=
  (Ends.mapM fun a mem => gives_iff.mpr (each a mem)).of_ok listed

/-- An invariant that each step keeps holds at the end. -/
theorem Ends.foldlM {kept : σ → Prop} {f : σ → α → Except Error σ}
    (step : ∀ b, kept b → ∀ a ∈ l, Ends kept allowed (f b a)) {b : σ} (start : kept b) :
    Ends kept allowed (l.foldlM f b) := by
  induction l generalizing b with
  | nil => exact start
  | cons a _ ih =>
    rw [foldlM_cons]
    refine (step b start a mem_cons_self).bind fun c _ isKept => ?_
    exact ih (fun b isKept a mem => step b isKept a (mem_cons_of_mem _ mem)) isKept

/-- What each step keeps holds of the result. -/
theorem foldlM_keeps (kept : σ → Prop) {f : σ → α → Except Error σ} {b c : σ}
    (folded : l.foldlM f b = .ok c) (start : kept b)
    (step : ∀ b, kept b → ∀ a ∈ l, ∀ c, f b a = .ok c → kept c) : kept c :=
  (Ends.foldlM (fun b isKept a mem => gives_iff.mpr (step b isKept a mem)) start).of_ok folded

theorem exists_of_forall₂ {R : α → β → Prop} {l' : List β} (related : Forall₂ R l l') {x : α}
    (mem : x ∈ l) : ∃ y ∈ l', R x y := by
  induction related with
  | nil => exact absurd mem not_mem_nil
  | @cons a b l l' here _ ih =>
    rcases mem_cons.mp mem with rfl | later
    · exact ⟨b, mem_cons_self, here⟩
    · obtain ⟨y, inside, known⟩ := ih later
      exact ⟨y, mem_cons_of_mem _ inside, known⟩

/-- Each result of a list is that of an item. -/
theorem exists_of_mem_mapM {results : List β} (listed : l.mapM f = .ok results) {b : β}
    (mem : b ∈ results) : ∃ a ∈ l, f a = .ok b :=
  exists_of_forall₂ (forall₂_of_mapM listed fun _ _ _ gives => gives).flip mem

/-! ## Failures -/

theorem FailsOnly.mono (fails : FailsOnly allowed x) (wider : ∀ e, allowed e → allowed' e) :
    FailsOnly allowed' x :=
  Ends.mono fails (fun _ => id) wider

theorem FailsOnly.raise {cause : Cause} (worded : allowed (.refused cause))
    (wordless : allowed (.broken .unsupported)) :
    FailsOnly allowed (LinearProgram.raise cause : Except Error α) :=
  Ends.raise (fun _ => worded) fun _ => wordless

@[simp] theorem failsOnly_bind :
    FailsOnly allowed (x >>= f)
      ↔ FailsOnly allowed x ∧ ∀ a, x = .ok a → FailsOnly allowed (f a) := by
  cases x with
  | error e =>
    show allowed e ↔ _
    simp
  | ok a =>
    show FailsOnly allowed (f a) ↔ _
    simp

@[simp] theorem failsOnly_map {g : α → β} :
    FailsOnly allowed (x.map g) ↔ FailsOnly allowed x := by
  cases x with
  | error | ok => rfl

@[simp] theorem failsOnly_fmap {g : α → β} :
    FailsOnly allowed (g <$> x) ↔ FailsOnly allowed x := failsOnly_map

@[simp] theorem failsOnly_ite {p : Prop} [Decidable p] {y : Except Error α} :
    FailsOnly allowed (if p then x else y)
      ↔ (p → FailsOnly allowed x) ∧ (¬ p → FailsOnly allowed y) := by
  split <;> simp [*]

theorem FailsOnly.mapM (step : ∀ a ∈ l, FailsOnly allowed (f a)) :
    FailsOnly allowed (l.mapM f) :=
  (Ends.mapM step).failsOnly

theorem FailsOnly.foldlM {f : σ → α → Except Error σ}
    (step : ∀ b, ∀ a ∈ l, FailsOnly allowed (f b a)) (b : σ) :
    FailsOnly allowed (l.foldlM f b) :=
  Ends.foldlM (fun b _ => step b) trivial

/-! ## Congruence -/

theorem bind_congr_of_ok {g : α → Except Error β} (same : ∀ a, x = .ok a → f a = g a) :
    (x >>= f) = x >>= g := by
  cases x with
  | ok a => exact same a rfl
  | error => rfl

section Items

variable {M : Type → Type} [Monad M]

theorem mapM_congr_of_mem [LawfulMonad M] {f g : α → M β} (same : ∀ x ∈ l, f x = g x) :
    l.mapM f = l.mapM g := by
  induction l with
  | nil => rfl
  | cons _ _ ih =>
    rw [forall_mem_cons] at same
    rw [mapM_cons, mapM_cons, same.1, ih same.2]

theorem foldlM_congr_of_mem {f g : σ → α → M σ} (same : ∀ b, ∀ x ∈ l, f b x = g b x) (b : σ) :
    l.foldlM f b = l.foldlM g b := by
  induction l generalizing b with
  | nil => rfl
  | cons x _ ih =>
    rw [foldlM_cons, foldlM_cons, same b x mem_cons_self]
    exact bind_congr fun c => ih (fun b x mem => same b x (mem_cons_of_mem _ mem)) c

theorem forM_congr_of_mem {f g : α → M PUnit} (same : ∀ x ∈ l, f x = g x) :
    l.forM f = l.forM g := by
  induction l with
  | nil => rfl
  | cons x rest ih =>
    rw [forall_mem_cons] at same
    show (f x >>= fun _ => rest.forM f) = g x >>= fun _ => rest.forM g
    rw [same.1]
    exact bind_congr fun _ => ih same.2

end Items

end

end LinearProgram
