import LinearProgram.Proofs.Outcome
import LinearProgram.Proofs.Run

/-!
# Computations up to their errors

How much is seen of an error is a choice: all of it, or only that there is one (`seen`,
`Assembly.seen`). Either way computations are compared line by line, by rewriting.
`Assembly.success` is the change that a successful step makes.
-/

namespace LinearProgram

open List

variable {α β γ σ : Type} {exact : Bool} {l' : Listing β} {l : Listing α}

/-- What is seen of an error: all of it, or only that there is one. -/
def Error.seen (exact : Bool) (e : Error) : Error := if exact then e else .broken .unsupported

/-- What is seen of a computation. -/
def seen (exact : Bool) (x : Except Error α) : Except Error α := x.mapError (Error.seen exact)

/-! ## Results -/

section Results

variable {x y : Except Error α}

@[simp] theorem seen_true (x : Except Error α) : seen true x = x := by cases x <;> rfl

theorem seen_bind (x : Except Error α) (f : α → Except Error β) :
    seen exact (x >>= f) = seen exact x >>= fun a => seen exact (f a) := by
  cases x <;> rfl

theorem seen_pure (a : α) : seen exact (pure a) = pure a := rfl

theorem seen_raise (blurred : exact = false) (cause cause' : Cause) :
    seen exact (raise cause : Except Error α) = seen exact (raise cause') := by
  subst blurred
  rfl

/-- Computations that look alike have the same result, or both fail. -/
theorem cases_of_seen (same : seen exact x = seen exact y) :
    (∃ a, x = .ok a ∧ y = .ok a)
      ∨ ∃ e e', x = .error e ∧ y = .error e' ∧ e.seen exact = e'.seen exact := by
  cases x with
  | ok a =>
    cases y with
    | ok =>
      cases same
      exact .inl ⟨a, rfl, rfl⟩
    | error => cases same
  | error e =>
    cases y with
    | ok => cases same
    | error e' => exact .inr ⟨e, e', rfl, rfl, Except.error.inj same⟩

theorem ok_iff_of_seen (same : seen exact x = seen exact y) {a : α} : x = .ok a ↔ y = .ok a := by
  rcases cases_of_seen same with ⟨b, rfl, rfl⟩ | ⟨e, e', rfl, rfl, -⟩
  · rfl
  · simp

theorem seen_mapM (f : α → Except Error β) (l : List α) :
    seen exact (l.mapM f) = l.mapM fun a => seen exact (f a) := by
  induction l with
  | nil => rfl
  | cons _ _ ih => simp only [mapM_cons, seen_bind, ih, seen_pure]

theorem seen_foldlM (f : σ → α → Except Error σ) (l : List α) (b : σ) :
    seen exact (l.foldlM f b) = l.foldlM (fun b a => seen exact (f b a)) b := by
  induction l generalizing b with
  | nil => rfl
  | cons _ _ ih => simp only [foldlM_cons, seen_bind, ih]

/-- After results that look alike, only what follows a success is at issue. -/
theorem seen_bind_congr {f g : α → Except Error β} (first : seen exact x = seen exact y)
    (rest : ∀ a, x = .ok a → seen exact (f a) = seen exact (g a)) :
    seen exact (x >>= f) = seen exact (y >>= g) := by
  rw [seen_bind, seen_bind, ← first]
  cases x with
  | ok a => exact rest a rfl
  | error => rfl

end Results

section Items

variable {M : Type → Type} [Monad M]

/-- Two lists whose items are treated alike, one by one. -/
theorem mapM_eq_of_forall₂ [LawfulMonad M] {f : α → M γ} {g : β → M γ} {l : List α} {l' : List β}
    (same : Forall₂ (fun a b => f a = g b) l l') : l.mapM f = l'.mapM g := by
  induction same with
  | nil => rfl
  | cons here _ ih => rw [mapM_cons, mapM_cons, here, ih]

theorem foldlM_eq_of_forall₂ {f : σ → α → M σ} {g : σ → β → M σ} {l : List α} {l' : List β}
    (same : Forall₂ (fun a b => ∀ s, f s a = g s b) l l') (s : σ) :
    l.foldlM f s = l'.foldlM g s := by
  induction same generalizing s with
  | nil => rfl
  | cons here _ ih =>
    rw [foldlM_cons, foldlM_cons, here]
    exact bind_congr ih

end Items

/-! ## Steps -/

namespace Assembly

/-- What is seen of a step. -/
def seen (exact : Bool) (x : Assembly α) : Assembly α := ExceptT.adapt (Error.seen exact) x

@[simp] theorem seen_true (x : Assembly α) : seen true x = x := by
  funext s
  show (LinearProgram.seen true (x.run s).1, (x.run s).2) = x.run s
  rw [LinearProgram.seen_true]
  rfl

theorem seen_bind (x : Assembly α) (f : α → Assembly β) :
    seen exact (x >>= f) = seen exact x >>= fun a => seen exact (f a) := by
  funext s
  show (LinearProgram.seen exact ((x >>= f).run s).1, ((x >>= f).run s).2)
    = (seen exact x >>= fun a => seen exact (f a)).run s
  rw [run_bind, run_bind]
  show _ = match (LinearProgram.seen exact (x.run s).1, (x.run s).2) with
    | (.ok a, s') => (seen exact (f a)).run s'
    | (.error e, s') => (.error e, s')
  rcases x.run s with ⟨_ | _, _⟩ <;> rfl

theorem seen_pure (a : α) : seen exact (pure a : Assembly α) = pure a := rfl

theorem seen_lift (x : Except Error α) :
    seen exact (liftM x : Assembly α) = liftM (LinearProgram.seen exact x) := rfl

theorem seen_foldlM (f : σ → α → Assembly σ) (l : List α) (b : σ) :
    seen exact (l.foldlM f b) = l.foldlM (fun b a => seen exact (f b a)) b := by
  induction l generalizing b with
  | nil => rfl
  | cons _ _ ih => simp only [foldlM_cons, seen_bind, ih]

theorem seen_mapM (f : α → Assembly β) (l : List α) :
    seen exact (l.mapM f) = l.mapM fun a => seen exact (f a) := by
  induction l with
  | nil => rfl
  | cons _ _ ih => simp only [mapM_cons, seen_bind, ih, seen_pure]

theorem seen_lift_bind {x y : Except Error α} {f g : α → Assembly β}
    (first : LinearProgram.seen exact x = LinearProgram.seen exact y)
    (rest : ∀ a, x = .ok a → seen exact (f a) = seen exact (g a)) :
    seen exact (liftM x >>= f) = seen exact (liftM y >>= g) := by
  rw [seen_bind, seen_bind, seen_lift, seen_lift, ← first]
  cases x with
  | ok a => exact rest a rfl
  | error => rfl

/-- The change that a step makes if it succeeds. -/
def success (x : Assembly α) : StateT Store Option α := fun s =>
  match x.run s with
  | (.ok a, s') => some (a, s')
  | (.error _, _) => none

theorem success_eq_some {x : Assembly α} {s s' : Store} {a : α} :
    success x s = some (a, s') ↔ x.run s = (.ok a, s') := by
  unfold success
  generalize x.run s = outcome
  constructor
  · intro succeeded
    rcases outcome with ⟨e | b, s''⟩
    · cases succeeded
    · cases succeeded
      rfl
  · rintro rfl
    rfl

theorem success_seen (x : Assembly α) : success (seen exact x) = success x := by
  funext s
  show (match (LinearProgram.seen exact (x.run s).1, (x.run s).2) with
    | (.ok a, s') => some (a, s')
    | (.error _, _) => none) = success x s
  unfold success
  rcases x.run s with ⟨_ | _, _⟩ <;> rfl

theorem success_eq_of_seen {x y : Assembly α} (same : seen false x = seen false y) :
    success x = success y := by
  rw [← success_seen x, same, success_seen]

end Assembly

/-! ## Listings -/

/-- Listings whose items are related one by one, and that break off alike. -/
structure Listing.Alike (exact : Bool) (R : α → β → Prop) (l : Listing α) (l' : Listing β) :
    Prop where
  items : Forall₂ R l.items l'.items
  stop : l.stop.map (Error.seen exact) = l'.stop.map (Error.seen exact)

namespace Listing

variable {R : α → β → Prop}

theorem Alike.ends (alike : Alike exact R l l') :
    (l.stop = none ∧ l'.stop = none)
      ∨ ∃ e e', l.stop = some e ∧ l'.stop = some e' ∧ e.seen exact = e'.seen exact := by
  have both := alike.stop
  cases stopped : l.stop with
  | none =>
    rw [stopped] at both
    exact .inl ⟨rfl, Option.map_eq_none_iff.mp both.symm⟩
  | some e =>
    rw [stopped] at both
    obtain ⟨e', stopped', same⟩ := Option.map_eq_some_iff.mp both.symm
    exact .inr ⟨e, e', rfl, stopped', same.symm⟩

theorem Alike.chain {parts : γ → Listing α} {parts' : γ → Listing β} {l : List γ}
    (each : ∀ a ∈ l, Alike exact R (parts a) (parts' a)) :
    Alike exact R (Listing.chain parts l) (Listing.chain parts' l) := by
  induction l with
  | nil => exact ⟨.nil, rfl⟩
  | cons _ _ ih =>
    rw [forall_mem_cons] at each
    obtain ⟨first, others⟩ := each
    obtain ⟨items, stop⟩ := ih others
    rw [Listing.chain, Listing.chain]
    rcases first.ends with ⟨complete, complete'⟩ | ⟨e, e', stopped, stopped', -⟩
    · simp only [complete, complete']
      exact ⟨rel_append first.items items, stop⟩
    · simp only [stopped, stopped']
      exact first

/-- Folds over listings that are alike look alike if their steps do. -/
theorem Alike.foldM (alike : Alike exact R l l') {f : σ → α → Except Error σ}
    {g : σ → β → Except Error σ}
    (step : ∀ b a a', R a a' → seen exact (f b a) = seen exact (g b a')) (start : σ) :
    seen exact (l.foldM f start) = seen exact (l'.foldM g start) := by
  have folded : seen exact (l.items.foldlM f start) = seen exact (l'.items.foldlM g start) := by
    rw [seen_foldlM, seen_foldlM]
    exact foldlM_eq_of_forall₂ (alike.items.imp fun a a' known b => step b a a' known) start
  refine seen_bind_congr folded fun result _ => ?_
  rcases alike.ends with ⟨complete, complete'⟩ | ⟨e, e', stopped, stopped', same⟩
  · rw [complete, complete']
  · rw [stopped, stopped']
    exact congrArg Except.error same

theorem Alike.foldListing (alike : Alike exact R l l') {f : σ → α → Assembly σ}
    {g : σ → β → Assembly σ}
    (step : ∀ b a a', R a a' → Assembly.seen exact (f b a) = Assembly.seen exact (g b a'))
    (start : σ) :
    Assembly.seen exact (Assembly.foldListing l f start)
      = Assembly.seen exact (Assembly.foldListing l' g start) := by
  have folded : Assembly.seen exact (l.items.foldlM f start)
      = Assembly.seen exact (l'.items.foldlM g start) := by
    rw [Assembly.seen_foldlM, Assembly.seen_foldlM]
    exact foldlM_eq_of_forall₂ (alike.items.imp fun a a' known b => step b a a' known) start
  unfold Assembly.foldListing
  rw [Assembly.seen_bind, Assembly.seen_bind, folded]
  refine bind_congr fun result => ?_
  rcases alike.ends with ⟨complete, complete'⟩ | ⟨e, e', stopped, stopped', same⟩
  · rw [complete, complete']
  · rw [stopped, stopped']
    exact congrArg (fun e => (liftM (.error e : Except Error σ) : Assembly σ)) same

end Listing

end LinearProgram
