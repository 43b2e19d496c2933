import LinearProgram.Proofs.Rows

/-!
# The epigraph of the absolute value

An absolute value is linearized from one side only: a new variable lies above the operand and its
negative, so it attains all values from the absolute value upwards (`absolute_epigraph`). Where the
sign is known, the result is the absolute value itself.
-/

namespace LinearProgram

namespace Linearization

open Assembly

variable {cfg : Config} {s s' : Store} {e r : Polynomial}

theorem absoluteRows_states {m : Model} {z : Polynomial} (formedZ : z.Formed m)
    (formed : e.Formed m) :
    StatesAll m (absoluteRows z e) fun a => |e.valueAt a| ≤ z.valueAt a := by
  have above := computedRow_states "pos" .atLeast
    fun d => Polynomial.sub_ok (r := d) formedZ formed
  have below := computedRow_states "neg" .atLeast
    fun d => Polynomial.add_ok (r := d) formedZ formed
  refine (StatesAll.cons above (StatesAll.single below)).congr fun a => ?_
  rw [abs_le', ← sub_nonneg, neg_le_iff_add_nonneg]
  exact Iff.rfl

theorem sign_of_interval {m : Model} {bounds : Number × Number} (exact : e.ExactOver m)
    (formed : e.Formed m) (interval : m.boundsOf e = .ok bounds) {a : Assignment}
    (within : m.Within a) :
    (Number.lessEq (.int 0) bounds.1 = true → 0 ≤ e.valueAt a)
      ∧ (bounds.2.lessEq (.int 0) = true → e.valueAt a ≤ 0) := by
  obtain ⟨⟨shapeLow, shapeHigh⟩, holds⟩ := Model.boundsOf_within exact formed interval
  obtain ⟨low, high⟩ := holds a within
  simp only [Number.Bounds, cond_true, cond_false] at low high
  constructor
  · intro known
    rcases shapeLow with ⟨n, isInt⟩ | infinite
    · rw [isInt, Number.lessEq_int, decide_eq_true_iff] at known
      rw [isInt, Number.atMost_int] at low
      exact le_trans (by exact_mod_cast known) low
    · rw [infinite] at known
      exact absurd known (by decide)
  · intro known
    rcases shapeHigh with ⟨n, isInt⟩ | infinite
    · rw [isInt, Number.lessEq_int, decide_eq_true_iff] at known
      rw [isInt, Number.atLeast_int] at high
      exact le_trans high (by exact_mod_cast known)
    · rw [infinite] at known
      exact absurd known (by decide)

/-- What the linearization of an absolute value gives: the value itself and nothing new, or a new
variable that can take all values from there upwards. -/
inductive Bounded (cfg : Config) (e : Polynomial) (m m' : Model) (r : Polynomial) : Prop
  | computed (same : m' = m) (value : ∀ a, m.Within a → r.valueAt a = |e.valueAt a|)
  | raised (column : ∃ v, newColumns m m' = [v] ∧ v.kind = .continuous)
      (added : Adds cfg m m' r.valueAt fun a v => |e.valueAt a| ≤ v)

theorem bounded_of_rows {s₁ s₂ : Store} {family : String} {n : Nat} {done : Unit}
    (auxiliary : cfg.IsAuxiliary family) (same : s.model.Same s₁.model)
    (formed : e.Formed s.model)
    (introduced : (introduce cfg family [n] .continuous (some (.int 0)) none).run s₁
      = (.ok r, s₂))
    (declared : (declareRows cfg family n (absoluteRows r e)).run s₂ = (.ok done, s')) :
    Bounded cfg e s.model s'.model r := by
  obtain ⟨formedR, first⟩ := introduce_nonneg_adds auxiliary introduced
  have toSame := same.extension cfg
  have second := declareRows_adds
    (absoluteRows_states formedR ((toSame.trans first.extension).formed formed)) declared
  have both := first.restrict (fun v a => |e.valueAt a| ≤ v) second (by
    intro v a a' agrees
    rw [agrees.valueAt (toSame.formed formed)])
  refine .raised (newColumns_introduced same introduced declared)
    ((both.same_left same).congr fun a _ v => ?_)
  -- what lies above an absolute value is nonnegative anyway
  exact ⟨fun above => ⟨(abs_nonneg _).trans above, above⟩, And.right⟩

theorem absolute_bounded (exact : e.ExactOver s.model) (formed : e.Formed s.model)
    (ran : (absolute cfg e).run s = (.ok r, s')) : Bounded cfg e s.model s'.model r := by
  unfold absolute at ran
  split at ran
  case isTrue constant =>
    obtain ⟨rfl, rfl⟩ := run_pure_ok ran
    obtain ⟨n, isInt⟩ := formed.constant
    refine .computed rfl fun a _ => ?_
    rw [Polynomial.valueAt_of_isConstant constant, Polynomial.valueAt_const, isInt, Number.abs,
      Number.toRat_int, Number.toRat_int, Int.natCast_natAbs, Int.cast_abs]
  case isFalse =>
    obtain ⟨m, s₁, read, ran⟩ := run_bind_ok.mp ran
    cases read
    obtain ⟨⟨lower, upper⟩, interval, ran⟩ := run_lift_bind_ok.mp ran
    dsimp only at ran
    split at ran
    case isTrue known =>
      -- nowhere below 0, so the operand itself
      obtain ⟨rfl, rfl⟩ := run_pure_ok ran
      refine .computed rfl fun a within => ?_
      exact (abs_of_nonneg ((sign_of_interval exact formed interval within).1 known)).symm
    case isFalse =>
      split at ran
      case isTrue known =>
        -- nowhere above 0, so its negative
        obtain ⟨negated, rfl⟩ := run_lift_ok.mp ran
        obtain ⟨-, values⟩ := Polynomial.neg_ok formed negated
        refine .computed rfl fun a within => ?_
        rw [values a, abs_of_nonpos ((sign_of_interval exact formed interval within).2 known)]
      case isFalse =>
        -- the sign is open
        obtain ⟨⟨family, n⟩, s₃, named, ran⟩ := run_bind_ok.mp ran
        obtain ⟨rfl, same⟩ := nextFamily_ok named
        obtain ⟨z, s₄, introduced, ran⟩ := run_bind_ok.mp ran
        obtain ⟨_, s₅, declared, ran⟩ := run_bind_ok.mp ran
        obtain ⟨rfl, rfl⟩ := run_pure_ok ran
        exact bounded_of_rows (isAuxiliary_family cfg "abs") same formed introduced
          declared

/-- **An absolute value is exactly its epigraph.** Whenever the absolute value of a polynomial with
integer coefficients is linearized, over variables whose bounds are integers or infinite, the model
keeps its variables and rows and has at most one variable more. Without one, nothing has been added,
and the result is the absolute value of the operand at every assignment within the bounds of the
variables. With one, the values that the result attains at such an assignment are all rational
numbers from the absolute value upwards. -/
theorem absolute_epigraph (formed : e.Formed s.model) (exact : e.ExactOver s.model)
    (ran : (absolute cfg e).run s = (.ok r, s')) :
    s.model.columns <+: s'.model.columns ∧ s.model.constraints <+: s'.model.constraints
      ∧ AddsAtMostOne .continuous s.model s'.model
      ∧ ∀ a, s.model.Within a →
        (newColumns s.model s'.model = [] →
          s'.model = s.model ∧ r.valueAt a = |e.valueAt a|)
        ∧ (newColumns s.model s'.model ≠ [] →
          attainable s.model s'.model r a = Set.Ici |e.valueAt a|) := by
  cases absolute_bounded exact formed ran with
  | computed same value =>
    have none : newColumns s.model s'.model = [] := by rw [same, newColumns_self]
    refine ⟨by rw [same], by rw [same], .inl none, fun a within => ?_⟩
    exact ⟨fun _ => ⟨same, value a within⟩, fun new => absurd none new⟩
  | raised column added =>
    obtain ⟨columns, rows⟩ := added.extension.isPrefix
    refine ⟨columns, rows, .inr column, fun a _ => ?_⟩
    obtain ⟨v, isNew, -⟩ := column
    rw [isNew]
    refine ⟨fun none => absurd none (List.cons_ne_nil v []), fun _ => ?_⟩
    exact added.attainable_eq fun a' kept v above => by rwa [formed.valueAt_congr kept] at above

def basin : Store :=
  { model := {
      columns := [
        ⟨⟨"level", []⟩, .continuous, some (.int (-3)), some (.int 5), "level", .none, false⟩,
        ⟨⟨"spill", []⟩, .continuous, some (.int 0), none, "spill", .none, false⟩]
      families := [("level", [[]]), ("spill", [[]])] } }

def surplus : Polynomial := ⟨[(⟨"level", []⟩, .int 1), (⟨"spill", []⟩, .int (-2))], .int 0⟩

theorem surplus_formed : surplus.Formed basin.model :=
  Polynomial.formed_ofInts [(⟨"level", []⟩, 1), (⟨"spill", []⟩, -2)] 0 (by decide) (by decide)

theorem basin_exact : basin.model.ExactBounds := by
  simp only [Model.ExactBounds, basin, List.forall_mem_cons]
  exact ⟨⟨.inl ⟨-3, rfl⟩, .inl ⟨5, rfl⟩⟩, ⟨.inl ⟨0, rfl⟩, .inr rfl⟩, by simp⟩

theorem basin_within : basin.model.Within (.uniform 1) := by
  simp only [Model.Within, basin, List.forall_mem_cons]
  refine ⟨⟨?_, ?_⟩, ⟨?_, Number.atLeast_infinity 1⟩, by simp⟩
  all_goals
    norm_num [Variable.bounds, Assignment.uniform]

/-- Where the surplus is -1, its absolute value can be anything from 1 upwards. -/
theorem absolute_surplus_epigraph : ∃ r s', (absolute {} surplus).run basin = (.ok r, s')
    ∧ attainable basin.model s'.model r (.uniform 1) = Set.Ici 1 := by
  obtain ⟨r, ran⟩ := exists_run_ok (x := absolute {} surplus) (s := basin) (by decide +kernel)
  have new : (newColumns basin.model ((absolute {} surplus).run basin).2.model).isEmpty
      = false := by
    decide +kernel
  obtain ⟨-, -, -, epigraph⟩ := absolute_epigraph surplus_formed (basin_exact.over surplus) ran
  have value : |surplus.valueAt (.uniform 1)| = 1 := by
    norm_num [surplus, Assignment.uniform, Polynomial.valueAt]
  refine ⟨r, _, ran, ?_⟩
  rw [(epigraph (.uniform 1) basin_within).2 (List.isEmpty_eq_false_iff.mp new), value]

end Linearization

end LinearProgram
