import LinearProgram.Proofs.Composed

/-!
# Where repetitions are refused

A constraint is refused as a repetition only when it is put on record. Declarations, linearizations
and compilation never fail in this way (`RepeatFree`).
-/

namespace LinearProgram

open Assembly

/-- Whether a step fails with the refusal of a repeated constraint. -/
def Assembly.refusesRepeat {α : Type} (x : Assembly α) (s : Store) : Bool :=
  match (x.run s).1 with
  | .ok _ => false
  | .error e => e.isRepeat

/-- A step that never does. -/
def RepeatFree {α : Type} (x : Assembly α) : Prop :=
  ∀ s : Store, FailsOnly (·.isRepeat = false) (x.run s).1

namespace Assembly

variable {α β σ : Type} {s : Store}

/-- A sequence is refused in its first part, or in its second from where the first ended. -/
theorem refusesRepeat_bind {x : Assembly α} {f : α → Assembly β} :
    refusesRepeat (x >>= f) s = true ↔ refusesRepeat x s = true
      ∨ ∃ a s', x.run s = (.ok a, s') ∧ refusesRepeat (f a) s' = true := by
  rw [refusesRepeat, refusesRepeat, run_bind]
  rcases x.run s with ⟨e | a, s'⟩
  · show e.isRepeat = true ↔ e.isRepeat = true ∨ _
    refine ⟨.inl, ?_⟩
    rintro (refused | ⟨a, s'', ran, -⟩)
    · exact refused
    · cases ran
  · show refusesRepeat (f a) s' = true ↔ false = true ∨ _
    refine ⟨fun refused => .inr ⟨a, s', rfl, refused⟩, ?_⟩
    rintro (refused | ⟨a', s'', ran, refused⟩)
    · cases refused
    · cases ran
      exact refused

/-- Going through a list, the first element that is refused comes behind others that succeeded. -/
theorem refusesRepeat_foldlM {f : σ → α → Assembly σ} {l : List α} {b : σ} :
    refusesRepeat (l.foldlM f b) s = true ↔ ∃ before a after c s₁, l = before ++ a :: after
      ∧ (before.foldlM f b).run s = (.ok c, s₁) ∧ refusesRepeat (f c a) s₁ = true := by
  induction l generalizing b s with
  | nil =>
    refine ⟨nofun, ?_⟩
    rintro ⟨before, a, after, c, s₁, split, -⟩
    simp at split
  | cons a rest ih =>
    rw [List.foldlM_cons, refusesRepeat_bind]
    constructor
    · rintro (refused | ⟨d, s', first, refused⟩)
      · exact ⟨[], a, rest, b, s, rfl, rfl, refused⟩
      · obtain ⟨before, a', after, c, s₁, rfl, ran, refused⟩ := ih.mp refused
        refine ⟨a :: before, a', after, c, s₁, rfl, ?_, refused⟩
        rw [List.foldlM_cons]
        exact run_bind_ok.mpr ⟨d, s', first, ran⟩
    · rintro ⟨_ | ⟨a', before⟩, a'', after, c, s₁, split, ran, refused⟩
      · cases split
        obtain ⟨rfl, rfl⟩ := run_pure_ok ran
        exact .inl refused
      · cases split
        rw [List.foldlM_cons] at ran
        obtain ⟨d, s', first, ran⟩ := run_bind_ok.mp ran
        exact .inr ⟨d, s', first, ih.mpr ⟨before, a'', after, c, s₁, rfl, ran, refused⟩⟩

/-- A transaction is refused as its step is. -/
theorem refusesRepeat_transaction {x : Assembly α} (closed : s.transaction = none) :
    refusesRepeat (transaction x) s
      = refusesRepeat x s.begun := by
  rw [refusesRepeat, refusesRepeat]
  rcases inner : x.run s.begun with ⟨e | a, after⟩
  · rw [run_transaction_rollBack closed inner]
  · rw [run_transaction_commit closed inner]

end Assembly

namespace RepeatFree

variable {α β σ : Type} {x : Assembly α} {result : Except Error α} {f : α → Assembly β}

theorem refusesRepeat_eq (free : RepeatFree x) (s : Store) : refusesRepeat x s = false := by
  unfold refusesRepeat
  split
  · rfl
  case h_2 e failed => exact (free s).of_error failed

/-- Where the second step never refuses a repetition, the first one has to. -/
theorem refusesRepeat_bind_eq (rest : ∀ a, RepeatFree (f a)) (s : Store) :
    refusesRepeat (x >>= f) s = refusesRepeat x s := by
  rw [Bool.eq_iff_iff, refusesRepeat_bind]
  simp [(rest _).refusesRepeat_eq]

theorem refusesRepeat_foldListing {f : σ → α → Assembly σ} {listing : Listing α}
    (listed : listing.FailsOnly Error.NoClash) (b : σ) (s : Store) :
    refusesRepeat (Assembly.foldListing listing f b) s
      = refusesRepeat (listing.items.foldlM f b) s :=
  refusesRepeat_bind_eq
    (fun done => ((Composed.stop listed done).mono Error.isRepeat_of_clash).failsOnly) s

/-! ## Compilation -/

section Compilation

open Compilation

variable {cfg : Config}

theorem clashFree_constraintLabel (desc : Value) (gens : List GeneratorItem)
    (ctx : Context) : ClashFree (constraintLabel desc gens ctx) := by
  have braces : ClashFree (mentionsBrace desc) := by
    unfold mentionsBrace
    split <;> simp
  have filled : ClashFree (fillDescription desc ctx) := by
    unfold fillDescription
    split
    · split
      · simp
      · exact clashFree_raise rfl
      · exact clashFree_raise rfl
    · exact clashFree_raise rfl
  unfold Compilation.constraintLabel
  split
  · simp
  · refine failsOnly_bind.mpr ⟨braces, fun mentions _ => ?_⟩
    cases mentions with
    | true => exact filled
    | false => simp

theorem clashFree_relationOf (op : Comparison) : ClashFree (relationOf (.str op.sign)) := by
  cases op with
  | ne => exact clashFree_raise rfl
  | _ => exact trivial

/-- What follows when the constraint of a binding is on record. -/
theorem declareRow (op : Comparison) (left right : Expr) (gens : List GeneratorItem)
    (desc : Value) (ctx : Context) : RepeatFree (do
      let lhs ← Compilation.compile cfg left ctx
      let rhs ← Compilation.compile cfg right ctx
      let label ← constraintLabel desc gens ctx
      let rel ← relationOf (.str op.sign)
      Assembly.addConstraint cfg label lhs rel rhs label) := by
  have compiled : ∀ e, Composed Changing (·.isRepeat = false) (Compilation.compile cfg e ctx) :=
    fun e => (Composed.compile e ctx).refine Error.isRepeat_of_clash .of_linearizing
  have computed : ∀ {α : Type} {result : Except Error α}, ClashFree result →
      Composed Changing (·.isRepeat = false) (liftM result : Assembly α) :=
    fun free => .lift (free.mono Error.isRepeat_of_clash)
  refine Composed.failsOnly ((compiled left).bind fun lhs => (compiled right).bind fun rhs => ?_)
  refine (computed (clashFree_constraintLabel desc gens ctx)).bind fun label => ?_
  exact (computed (clashFree_relationOf op)).bind fun rel =>
    .addConstraint (fun e plain => Error.isRepeat_of_clash e (plain.noClash e))
      .storeConstraint_noRepeat

end Compilation

end RepeatFree

end LinearProgram
