import LinearProgram.Proofs.Feasibility

/-!
# Constraints keep their solutions

The difference of the two sides of a constraint is judged at once if it has no variables, and
otherwise stored and written with its constant on the right. With integer coefficients each of these
says what the comparison said.
-/

namespace LinearProgram

variable {s : Store} {d : Polynomial} {e : Error} {n : Int} {terms : List (VarKey × Number)}
  {holds : Assignment → Prop}

/-! ## Signs -/

/-- The signs of constraints. -/
def Relation.signs : List String := ["==", "=", "<=", ">=", "<", ">"]

/-- What a sign says about two values; the strict signs say no more than the others. -/
def Relation.SignHolds (sign : String) (x y : ℚ) : Prop :=
  if sign = "==" ∨ sign = "=" then x = y
  else if sign = "<=" ∨ sign = "<" then x ≤ y
  else x ≥ y

/-- Every sign has a relation, which says of two values what the sign does. -/
theorem Assembly.relationOf_signs {sign : String} (known : sign ∈ Relation.signs) :
    ∃ rel, relationOf (.str sign) = .ok rel
      ∧ ∀ x y, rel.Relates x y ↔ Relation.SignHolds sign x y := by
  simp only [Relation.signs, List.mem_cons, List.not_mem_nil, or_false] at known
  rcases known with rfl | rfl | rfl | rfl | rfl | rfl <;>
    exact ⟨_, rfl, fun x y => by simp [Relation.SignHolds, Relation.Relates]⟩

/-! ## Outcomes -/

theorem orUnsupported_error {α : Type} {x : Option α} (failed : orUnsupported x = .error e) :
    e = .broken .unsupported := by
  cases x with
  | none =>
    cases failed
    rfl
  | some => cases failed

/-- The refusal of a constraint that cannot hold. -/
def Error.IsInfeasible (e : Error) : Prop :=
  ∃ cause, e = .refused cause ∧ cause.kind = .infeasibleConstraint

/-- Whether a row, as it is written, holds exactly where a condition does: it has variables on the
left and a number on the right. -/
def Constraint.Writes (c : Constraint) (holds : Assignment → Prop) : Prop :=
  ∃ linear n, c.normalized = .ok (linear, .int n) ∧ linear.constant = .int 0 ∧ linear.terms ≠ []
    ∧ ∀ a, c.relation.Relates (linear.valueAt a) n ↔ holds a

/-- What the outcome of a declaration says about the assignments for which a condition holds: it is
skipped if they are all, refused as infeasible if there are none, and otherwise one more row. -/
def KeepsSolutions (holds : Assignment → Prop) (before : Model) :
    Except Error (Option Constraint) × Store → Prop
  | (.ok none, _) => ∀ a, holds a
  | (.ok (some c), after) =>
    after.model.constraints = before.constraints ++ [c] ∧ c.Writes holds
  | (.error e, _) => e.IsInfeasible → ∀ a, ¬ holds a

namespace Assembly

variable {cfg : Config} {name desc : Value} {lhs rhs : Polynomial} {rel : Relation}

theorem constraintName_error {s' : Store} (ran : (constraintName name).run s = (.error e, s')) :
    e = .broken .unsupported := by
  cases name with
  | none =>
    obtain ⟨n, counters, named, -⟩ := nextConstraintId_run (s.model.constraintNames.length + 1) s
    cases ran.symm.trans named
  | str => cases ran
  | _ =>
    cases ran
    rfl

theorem storeConstraint_error {s' : Store}
    (ran : (storeConstraint cfg name lhs rhs rel desc).run s = (.error e, s')) :
    e = .broken .unsupported ∨ ∃ cause, e = .refused cause ∧ cause.kind = .duplicateName := by
  obtain ⟨before, after, -, inner, -⟩ := run_transaction_error ran
  rw [run_bind] at inner
  rcases named : (constraintName name).run before with ⟨e' | rawName, s₁⟩
  · rw [named] at inner
    cases inner
    exact .inl (constraintName_error named)
  · simp only [named, run_bind, run_lift] at inner
    cases limited : cfg.nameLimit with
    | error =>
      rw [limited] at inner
      cases inner
      exact .inl (orUnsupported_error limited)
    | ok =>
      simp only [limited, run_report] at inner
      split at inner
      · cases inner
        exact .inr ⟨_, rfl, rfl⟩
      · simp only [run_bind, run_model] at inner
        split at inner
        · split at inner <;> cases inner <;> exact .inr ⟨_, rfl, rfl⟩
        · cases inner

theorem addConstraint_constant (minus : lhs.sub rhs = .ok d) (constant : d.isConstant = true)
    (s : Store) :
    ((addConstraint cfg name lhs rel rhs desc).run s).1
      = if rel.holds d.constant then .ok none
        else .error (.refused
          (.infeasible (constraintLabel name desc) d.constant rel)) := by
  rw [addConstraint, run_bind, run_lift, minus]
  simp only [constant, if_true]
  split
  · rfl
  · rfl

theorem addConstraint_stores (minus : lhs.sub rhs = .ok d) (varies : d.isConstant = false)
    (s : Store) :
    (addConstraint cfg name lhs rel rhs desc).run s
      = match (storeConstraint cfg name lhs rhs rel desc).run s with
        | (.ok c, s') => (.ok (some c), s')
        | (.error e, s') => (.error e, s') := by
  rw [addConstraint, run_bind, run_lift, minus]
  simp only [varies, Bool.false_eq_true, if_false, run_bind]
  rcases (storeConstraint cfg name lhs rhs rel desc).run s with ⟨e | c, s'⟩ <;> rfl

/-- The outcome of a declaration whose terms cancel. -/
theorem keepsSolutions_constant {label : String} {run : Except Error (Option Constraint) × Store}
    (outcome : run.1 = if rel.holds (.int n) then .ok none
      else .error (.refused (.infeasible label (.int n) rel)))
    (solutions : ∀ a, rel.Relates n 0 ↔ holds a) :
    KeepsSolutions holds s.model run ∧ ∀ e s', run = (.error e, s') → e.IsInfeasible := by
  obtain ⟨result, s'⟩ := run
  by_cases isTrue : rel.holds (.int n) = true
  · rw [if_pos isTrue] at outcome
    cases outcome
    refine ⟨fun a => (solutions a).mp ((rel.holds_int n).mp isTrue), ?_⟩
    rintro e s' ⟨⟩
  · rw [if_neg isTrue] at outcome
    cases outcome
    refine ⟨fun _ a holds => isTrue ((rel.holds_int n).mpr ((solutions a).mpr holds)), ?_⟩
    rintro e s' ⟨⟩
    exact ⟨_, rfl, rfl⟩

/-- The outcome of a declaration with terms left over. -/
theorem keepsSolutions_stores (minus : lhs.sub rhs = .ok (.ofTerms terms (.int n)))
    (exact : Polynomial.IntTerms terms)
    (varies : (Polynomial.ofTerms terms (.int n)).isConstant = false)
    (solutions : ∀ a, rel.Relates (Polynomial.sumAt a terms) (-n) ↔ holds a) :
    KeepsSolutions holds s.model
      ((addConstraint cfg name lhs rel rhs desc).run s)
      ∧ ∀ e s', (addConstraint cfg name lhs rel rhs desc).run s = (.error e, s') →
        (storeConstraint cfg name lhs rhs rel desc).run s = (.error e, s') := by
  rw [addConstraint_stores minus varies]
  rcases ran : (storeConstraint cfg name lhs rhs rel desc).run s with ⟨e | c, s'⟩
  · constructor
    · rintro ⟨cause, rfl, kind⟩
      rcases storeConstraint_error ran with broken | ⟨other, refused, kind'⟩
      · cases broken
      · cases refused
        rw [kind] at kind'
        cases kind'
    · rintro e' s'' ⟨⟩
      rfl
  · have stored := storeConstraint_ok ran
    refine ⟨⟨?_, ?_⟩, ?_⟩
    · obtain ⟨counters, model⟩ := stored.model
      rw [model]
      rfl
    · rw [← stored.lhs, ← stored.rhs] at minus
      refine ⟨_, _, Constraint.normalized_whole minus, rfl, ?_, ?_⟩
      · intro none
        have constant : (Polynomial.ofTerms terms (.int n)).isConstant = true :=
          List.isEmpty_iff.mpr none
        rw [constant] at varies
        cases varies
      · intro a
        rw [Polynomial.valueAt_ofTerms a 0 exact, stored.relation, ← solutions a]
        push_cast
        rw [zero_add]
    · rintro e s' ⟨⟩

/-- **Declaring a constraint keeps its solutions.** A skipped one holds everywhere, a refused one
nowhere, and a stored one is written as variables on the left and a number on the right that hold
where the comparison does. No other failure has to do with the solutions: it comes from storing the
row under its name. -/
theorem declared_solutions (cfg : Config) (name desc : Value) (s : Store)
    (left : lhs.Whole) (right : rhs.Whole) {sign : String} (known : sign ∈ Relation.signs) :
    ∃ rel, relationOf (.str sign) = .ok rel
      ∧ KeepsSolutions (fun a => Relation.SignHolds sign (lhs.valueAt a) (rhs.valueAt a)) s.model
        ((addConstraint cfg name lhs rel rhs desc).run s)
      ∧ ∀ e s', (addConstraint cfg name lhs rel rhs desc).run s = (.error e, s') →
        e.IsInfeasible
          ∨ (storeConstraint cfg name lhs rhs rel desc).run s = (.error e, s') := by
  obtain ⟨rel, isRelation, reading⟩ := relationOf_signs known
  obtain ⟨terms, n, minus, exact, values⟩ := left.sub right
  have solutions : ∀ a, rel.Relates (Polynomial.sumAt a terms) (-n)
      ↔ Relation.SignHolds sign (lhs.valueAt a) (rhs.valueAt a) :=
    fun a => (rel.relates_difference (values a)).trans (reading _ _)
  refine ⟨rel, isRelation, ?_⟩
  cases constant : (Polynomial.ofTerms terms (.int n)).isConstant with
  | true =>
    have cancelled : ∀ a, Polynomial.sumAt a terms = 0 := by
      intro a
      have none : terms.filter (fun term => !term.2.isZero) = [] := List.isEmpty_iff.mp constant
      rw [← Polynomial.sumAt_filter a exact, none]
      rfl
    -- the comparison is one between numbers then
    have judged : ∀ a, rel.Relates n 0
        ↔ Relation.SignHolds sign (lhs.valueAt a) (rhs.valueAt a) := by
      intro a
      rw [← solutions a, cancelled a, ← rel.relates_sub n 0 n, sub_zero, sub_self]
    obtain ⟨keeps, failures⟩ :=
      keepsSolutions_constant (addConstraint_constant minus constant s) judged
    exact ⟨keeps, fun e s' ran => .inl (failures e s' ran)⟩
  | false =>
    obtain ⟨keeps, failures⟩ := keepsSolutions_stores minus exact constant solutions
    exact ⟨keeps, fun e s' ran => .inr (failures e s' ran)⟩

/-- `3 x + 2 < x + 7` becomes one row, which holds where `x` is at most two and a half. -/
theorem strict_row_solutions :
    let x : VarKey := ⟨"x", []⟩
    let lhs : Polynomial := ⟨[(x, .int 3)], .int 2⟩
    let rhs : Polynomial := ⟨[(x, .int 1)], .int 7⟩
    ∃ c s', (addConstraint {} .none lhs .atMost rhs .none).run {} = (.ok (some c), s')
      ∧ s'.model.constraints = [c] ∧ c.Writes fun a => 2 * a.value x ≤ 5 := by
  intro x lhs rhs
  have left : lhs.Whole := ⟨by simp [Polynomial.IntTerms, lhs], 2, rfl⟩
  have right : rhs.Whole := ⟨by simp [Polynomial.IntTerms, rhs], 7, rfl⟩
  obtain ⟨rel, isRelation, keeps, -⟩ :=
    declared_solutions {} .none .none {} left right (show "<" ∈ Relation.signs by decide)
  obtain rfl : Relation.atMost = rel := by
    have known : relationOf (.str "<") = .ok .atMost := rfl
    exact Except.ok.inj (known.symm.trans isRelation)
  obtain ⟨c, s', ran⟩ : ∃ c s',
      (addConstraint {} .none lhs .atMost rhs .none).run {} = (.ok (some c), s') := ⟨_, _, rfl⟩
  rw [ran] at keeps
  obtain ⟨stored, linear, n, normalized, zero, some, solutions⟩ := keeps
  refine ⟨c, s', ran, stored, linear, n, normalized, zero, some, ?_⟩
  intro a
  have reading : Relation.SignHolds "<" (lhs.valueAt a) (rhs.valueAt a)
      ↔ 2 + 3 * a.value x ≤ 7 + a.value x := by
    simp [Relation.SignHolds, Polynomial.valueAt, lhs, rhs]
  refine ((solutions a).trans reading).trans ?_
  show _ ↔ 2 * a.value x ≤ 5
  constructor <;> intro related <;> linarith

end Assembly

end LinearProgram
