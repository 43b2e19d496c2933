import LinearProgram.Proofs.Realization

/-!
# Rows with big-M constants

The rows that several operators share. The big-M constants are a multiple, at least one, of the
distance of two bounds, so the rows say nothing where a selector is off.
-/

namespace LinearProgram

open List

variable {n : Nat} {family : String} {ys : List Polynomial} {rows : List (Except Error Row)}

namespace Linearization

open Assembly

variable {cfg : Config} {free : Prop} {s s' : Store}

/-! ## Names, selectors and sums -/

theorem isAuxiliary_family (cfg : Config) (operation : String) :
    cfg.IsAuxiliary (cfg.auxiliaryWord.text ++ "_" ++ operation) := ⟨operation, rfl⟩

theorem isAuxiliary_part (cfg : Config) (operation part : String) :
    cfg.IsAuxiliary (cfg.auxiliaryWord.text ++ "_" ++ operation ++ part) :=
  ⟨operation ++ part, String.append_assoc⟩

theorem forall₂_const_iff {ι α : Type} {P : α → Prop} {l : List ι} {vs : List α} :
    Forall₂ (fun _ v => P v) l vs ↔ vs.length = l.length ∧ ∀ v ∈ vs, P v := by
  induction l generalizing vs with
  | nil => cases vs <;> simp
  | cons _ _ ih => cases vs <;> simp [ih, and_left_comm]

theorem nextFamily_ok {operation : String}
    (ran : (nextFamily cfg operation).run s = (.ok (family, n), s')) :
    family = cfg.auxiliaryWord.text ++ "_" ++ operation ∧ s.model.Same s'.model := by
  cases ran
  exact ⟨rfl, ⟨rfl, rfl, rfl, rfl⟩⟩

theorem introduceSelectors_adds {count : Nat} (auxiliary : cfg.IsAuxiliary (family ++ "_sel"))
    (ran : (introduceSelectors cfg family n count).run s = (.ok ys, s')) :
    (∀ y ∈ ys, y.Formed s'.model)
      ∧ Adds cfg s.model s'.model (fun a => ys.map (·.valueAt a))
          (fun _ vs => vs.length = count ∧ ∀ v ∈ vs, v = 0 ∨ v = 1) := by
  obtain ⟨formed, added⟩ := Expresses.mapM (D := fun _ _ v => v = 0 ∨ v = 1) (I := fun _ => True)
    (fun _ _ => trivial) (fun k _ s p s' _ ran => introduce_binary_adds auxiliary ran)
    (fun _ _ _ _ _ _ _ _ => Iff.rfl) trivial ran
  refine ⟨formed, added.congr fun a _ vs => ?_⟩
  rw [forall₂_const_iff, length_range]

theorem introduceSelectors_columns {count : Nat}
    (ran : (introduceSelectors cfg family n count).run s = (.ok ys, s')) :
    ∃ vs : List Variable, s'.model.columns = s.model.columns ++ vs
      ∧ ys = vs.map (fun v => Polynomial.ofKey v.key) ∧ ∀ v ∈ vs, v.kind = .binary := by
  unfold introduceSelectors at ran
  generalize List.range count = numbers at ran
  induction numbers generalizing s ys with
  | nil =>
    obtain ⟨rfl, rfl⟩ := run_pure_ok ran
    exact ⟨[], by simp⟩
  | cons _ _ ih =>
    rw [mapM_cons] at ran
    obtain ⟨y, s₁, introduced, ran⟩ := run_bind_ok.mp ran
    obtain ⟨others, s₂, later, done⟩ := run_bind_ok.mp ran
    obtain ⟨rfl, rfl⟩ := run_pure_ok done
    obtain ⟨v, -, kind, -, -, -, rfl, -, model⟩ := introduce_ok introduced
    obtain ⟨vs, columns, rfl, kinds⟩ := ih later
    refine ⟨v :: vs, ?_, rfl, forall_mem_cons.mpr ⟨kind, kinds⟩⟩
    rw [columns, model, Model.addVariable, append_assoc]
    rfl

theorem declareRows_columns {u : Unit}
    (ran : (declareRows cfg family n rows).run s = (.ok u, s')) :
    s'.model.columns = s.model.columns := by
  induction rows generalizing s with
  | nil =>
    obtain ⟨-, rfl⟩ := run_pure_ok ran
    rfl
  | cons _ _ ih =>
    obtain ⟨_, s₁, here, later⟩ := run_bind_ok.mp ran
    obtain ⟨r, -, here⟩ := run_lift_bind_ok.mp here
    obtain ⟨_, s₃, declared, here⟩ := run_bind_ok.mp here
    obtain ⟨-, rfl⟩ := run_pure_ok here
    obtain ⟨-, -, ⟨-, -, model⟩ | ⟨-, c, stored⟩⟩ := addConstraint_cases declared
    · rw [ih later, model]
    · obtain ⟨-, -, -, -, -, -, ⟨counters, model⟩, -⟩ := stored
      rw [ih later, model]
      rfl

/-- A variable that is introduced before rows is the one new variable. -/
theorem newColumns_introduced {s₁ s₂ : Store} {index : List Nat} {kind : VariableKind}
    {lower upper : Option Number} {z : Polynomial} {u : Unit} (same : s.model.Same s₁.model)
    (introduced : (introduce cfg family index kind lower upper).run s₁ = (.ok z, s₂))
    (declared : (declareRows cfg family n rows).run s₂ = (.ok u, s')) :
    ∃ v, newColumns s.model s'.model = [v] ∧ v.kind = kind := by
  obtain ⟨v, -, isKind, -, -, -, -, -, model⟩ := introduce_ok introduced
  refine ⟨v, ?_, isKind⟩
  rw [newColumns, declareRows_columns declared, model, Model.addVariable, same.columns,
    drop_left]

theorem total_ok {m : Model} {ps : List Polynomial} {r : Polynomial}
    (formed : ∀ p ∈ ps, p.Formed m) (summed : total ps = .ok r) :
    r.Formed m ∧ ∀ a : Assignment, r.valueAt a = (ps.map (·.valueAt a)).sum := by
  have general : ∀ (start r : Polynomial), start.Formed m →
      ps.foldlM Polynomial.add start = Except.ok r →
      r.Formed m
        ∧ ∀ a : Assignment, r.valueAt a = start.valueAt a + (ps.map (·.valueAt a)).sum := by
    clear summed
    induction ps with
    | nil =>
      intro start r ok done
      cases done
      exact ⟨ok, fun a => by simp⟩
    | cons _ _ ih =>
      intro start r ok folded
      rw [foldlM_cons] at folded
      obtain ⟨next, added, folded⟩ := bind_eq_ok.mp folded
      rw [forall_mem_cons] at formed
      obtain ⟨formedNext, values⟩ := Polynomial.add_ok ok formed.1 added
      obtain ⟨formedR, values'⟩ := ih formed.2 next r formedNext folded
      refine ⟨formedR, fun a => ?_⟩
      rw [values' a, values a, map_cons, sum_cons]
      ring
  obtain ⟨formedR, values⟩ := general _ r (Polynomial.formed_const m 0) summed
  exact ⟨formedR, fun a => by rw [values a]; simp⟩

theorem bigM_ok {k h l : Int} {M : Number} (found : bigM (.int k) (.int h) (.int l) = .ok M) :
    M = .int (k * (h - l)) := by
  cases found
  rfl

/-- A step that returns a polynomial over the variables so far. -/
theorem realizes_polynomial {m : Model} {p : Polynomial} (formed : p.Formed m)
    {D : Assignment → ℚ → Prop}
    (related : ∀ a v, m.Admits a → (D a v ↔ v = p.valueAt a)) :
    p.Formed m ∧ Realizes cfg free m m p.valueAt D :=
  ⟨formed, (Expresses.of_read p.valueAt ⟨rfl, rfl, rfl, rfl⟩
    fun _ _ agrees => agrees.valueAt formed).congr fun a admits v => related a v (admits trivial)⟩

/-! ## Rows -/

section Rows

variable {m : Model} {z e y : Polynomial} {k h l : Int}

/-- A row with a big-M constant: `z - e + M * y` or `z - e - M * y` is compared with a bound that
`M` gives. -/
theorem bigMRow_states (plus : ℚ → ℚ → ℚ) {join : Polynomial → Polynomial → Except Error Polynomial}
    (joins : ∀ {p q r : Polynomial}, p.Formed m → q.Formed m → join p q = .ok r →
      r.Formed m ∧ ∀ a : Assignment, r.valueAt a = plus (p.valueAt a) (q.valueAt a))
    (tag : String) (rel : Relation) (bound : Number → Number) {value : Int → Int}
    (bounds : ∀ M, bound (.int M) = .int (value M)) (formedZ : z.Formed m) (formedE : e.Formed m)
    (formedY : y.Formed m) :
    States m (do
      let M ← bigM (.int k) (.int h) (.int l)
      let d ← z.sub e
      let scaled ← y.scale M
      let lhs ← join d scaled
      pure { tag, lhs, relation := rel, rhs := bound M }) fun a =>
        rel.Relates (plus (z.valueAt a - e.valueAt a) (y.valueAt a * (k * (h - l))))
          (value (k * (h - l))) := by
  intro r computed
  obtain ⟨M, found, computed⟩ := bind_eq_ok.mp computed
  obtain rfl := bigM_ok found
  obtain ⟨d, minus, computed⟩ := bind_eq_ok.mp computed
  obtain ⟨scaled, times, computed⟩ := bind_eq_ok.mp computed
  obtain ⟨lhs, joined, computed⟩ := bind_eq_ok.mp computed
  cases computed
  obtain ⟨formed, values⟩ := Polynomial.sub_ok formedZ formedE minus
  obtain ⟨formed', values'⟩ := Polynomial.scale_ok formedY times
  obtain ⟨formed'', values''⟩ := joins formed formed' joined
  refine ⟨formed'', ⟨_, bounds _⟩, fun a => ?_⟩
  rw [Row.HoldsAt, bounds, Number.toRat_int, values'' a, values' a, values a]
  push_cast
  rfl

/-- A polynomial that is computed is compared with zero. -/
theorem computedRow_states {lhs : Except Error Polynomial} {f : Assignment → ℚ} (tag : String)
    (rel : Relation)
    (computes : ∀ d, lhs = .ok d → d.Formed m ∧ ∀ a : Assignment, d.valueAt a = f a) :
    States m (do pure { tag, lhs := ← lhs, relation := rel }) fun a => rel.Relates (f a) 0 := by
  intro r computed
  obtain ⟨d, found, computed⟩ := bind_eq_ok.mp computed
  cases computed
  obtain ⟨formed, values⟩ := computes d found
  refine ⟨formed, ⟨0, rfl⟩, fun a => ?_⟩
  rw [Row.HoldsAt, values a, Number.toRat_int, Int.cast_zero]

/-- `z - e` is compared with zero, once the big-M constant is known to exist. -/
theorem plainRow_states (tag : String) (rel : Relation) (formedZ : z.Formed m)
    (formedE : e.Formed m) :
    States m (do
      let _ ← bigM (.int k) (.int h) (.int l)
      let d ← z.sub e
      pure { tag, lhs := d, relation := rel }) fun a =>
        rel.Relates (z.valueAt a - e.valueAt a) 0 := by
  intro r computed
  obtain ⟨_, -, computed⟩ := bind_eq_ok.mp computed
  exact computedRow_states tag rel (fun d => Polynomial.sub_ok formedZ formedE) r computed

theorem oneRow_states (formed : ∀ y ∈ ys, y.Formed m) :
    States m (oneRow ys) fun a => (ys.map (·.valueAt a)).sum = 1 := by
  intro r computed
  obtain ⟨sum, summed, computed⟩ := bind_eq_ok.mp computed
  cases computed
  obtain ⟨formedSum, values⟩ := total_ok formed summed
  refine ⟨formedSum, ⟨1, rfl⟩, fun a => ?_⟩
  simp [Row.HoldsAt, Relation.Relates, values a]

end Rows

end Linearization

end LinearProgram
