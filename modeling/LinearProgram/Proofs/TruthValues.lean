import LinearProgram.Proofs.Connectives

/-!
# Exactness of choices and connectives

A choice attains the value of the chosen branch and no other (`choice_exact`), a connective its
truth value (`Connective.linearize_attains`), if the operands are 0 or 1. Over rounded bounds
operands may pass that are neither (`Connective.linearize_all_of_two`).
-/

namespace LinearProgram

open List

namespace Linearization

open Assembly

/-! ## Choice -/

/-- A choice attains the values of the branch that its condition chooses. -/
theorem Branched.attainable_eq {cfg : Config} {c x y r : Polynomial} {m m' : Model}
    {a : Assignment} (branched : Branched cfg c x y m m' r) (formedC : c.Formed m)
    (formedX : x.Formed m) (formedY : y.Formed m) (decides : Decides m c a) :
    attainable m m' r a = {v | Chooses (c.valueAt a) (x.valueAt a) (y.valueAt a) v} := by
  refine branched.added.attainable_eq decides fun a' kept => ?_
  rw [formedC.valueAt_congr kept, formedX.valueAt_congr kept, formedY.valueAt_congr kept]
  refine ⟨⟨decides.within.congr kept, ?_⟩, fun _ chooses => chooses⟩
  rw [formedC.valueAt_congr kept]
  exact decides.binary

/-- **A choice is exact.** Whenever a choice between two polynomials by a third is linearized with
an integer slack of at least 1, all three with integer coefficients and over variables whose bounds
are integers or infinite, the model keeps its variables and rows and has at most one variable more.
At every assignment that the variables so far admit, the condition is 1 or 0, the further variable
has values within its bounds that satisfy the further rows, and all such values give the resulting
polynomial the value of the first or of the second branch. -/
theorem choice_exact {cfg : Config} {k : Int} (slack : cfg.bigMSlack = .int k) (one : 1 ≤ k)
    {c x y r : Polynomial} {s s' : Store} (formed : ∀ p ∈ [c, x, y], p.Formed s.model)
    (exact : ∀ p ∈ [c, x, y], p.ExactOver s.model)
    (ran : (choice cfg c x y).run s = (.ok r, s')) :
    s.model.columns <+: s'.model.columns ∧ s.model.constraints <+: s'.model.constraints
      ∧ AddsAtMostOne .continuous s.model s'.model
      ∧ ∀ a, s.model.Admits a →
        c.valueAt a = 1 ∧ attainable s.model s'.model r a = {x.valueAt a}
          ∨ c.valueAt a = 0 ∧ attainable s.model s'.model r a = {y.valueAt a} := by
  simp only [List.forall_mem_cons] at formed exact
  obtain ⟨formedC, formedX, formedY, -⟩ := formed
  obtain ⟨exactC, exactX, exactY, -⟩ := exact
  have branched := choice_branched slack one exactX exactY formedC formedX formedY ran
  obtain ⟨columns, rows⟩ := branched.added.extension.isPrefix
  refine ⟨columns, rows, branched.columns, fun a admits => ?_⟩
  have decides := branched.decides exactC formedC admits
  rw [branched.attainable_eq formedC formedX formedY decides]
  rcases decides.binary with isZero | isOne
  · refine .inr ⟨isZero, ?_⟩
    ext v
    simp [Chooses, isZero]
  · refine .inl ⟨isOne, ?_⟩
    ext v
    simp [Chooses, isOne]

/-- A model with a binary variable, an integer variable between 0 and 3 and another variable between
-1 and 2. -/
def kiln : Store :=
  { model := {
      columns := [
        ⟨⟨"open", []⟩, .binary, none, none, "open", .none, false⟩,
        ⟨⟨"bricks", []⟩, .integer, some (.int 0), some (.int 3), "bricks", .none, false⟩,
        ⟨⟨"heat", []⟩, .continuous, some (.int (-1)), some (.int 2), "heat", .none, false⟩]
      families := [("open", [[]]), ("bricks", [[]]), ("heat", [[]])] } }

def opened : Polynomial := ⟨[(⟨"open", []⟩, .int 1)], .int 0⟩

def closed : Polynomial := ⟨[(⟨"open", []⟩, .int (-1))], .int 1⟩

def fired : Polynomial := ⟨[(⟨"bricks", []⟩, .int 2)], .int 1⟩

def cooled : Polynomial := ⟨[(⟨"bricks", []⟩, .int 1), (⟨"heat", []⟩, .int (-1))], .int 0⟩

theorem kiln_exact : kiln.model.ExactBounds := by
  simp only [Model.ExactBounds, kiln, forall_mem_cons]
  exact ⟨Variable.exactBounds_of_binary _ rfl, ⟨.inl ⟨0, rfl⟩, .inl ⟨3, rfl⟩⟩,
    ⟨.inl ⟨-1, rfl⟩, .inl ⟨2, rfl⟩⟩, by simp⟩

theorem kiln_formed : ∀ p ∈ [opened, closed, fired, cooled], p.Formed kiln.model := by
  simp only [forall_mem_cons]
  refine ⟨?_, ?_, ?_, ?_, by simp⟩
  · exact Polynomial.formed_ofInts [(⟨"open", []⟩, 1)] 0 (by decide) (by decide)
  · exact Polynomial.formed_ofInts [(⟨"open", []⟩, -1)] 1 (by decide) (by decide)
  · exact Polynomial.formed_ofInts [(⟨"bricks", []⟩, 2)] 1 (by decide) (by decide)
  · exact Polynomial.formed_ofInts [(⟨"bricks", []⟩, 1), (⟨"heat", []⟩, -1)] 0 (by decide)
      (by decide)

theorem kiln_admits : kiln.model.Admits (.uniform 1) := by
  simp only [Model.Admits, kiln, forall_mem_cons]
  refine ⟨?_, ⟨?_, ?_, ⟨1, rfl⟩⟩, ⟨?_, ?_, trivial⟩, by simp⟩
  · exact (Variable.allows_binary _ rfl _).mpr (.inr rfl)
  all_goals
    norm_num [Variable.bounds, Assignment.uniform]

/-- With the kiln open the choice by its being closed attains the second branch. -/
theorem choice_closed_exact : ∃ r s',
    (choice { bigMSlack := .int 2 } closed fired cooled).run kiln = (.ok r, s')
      ∧ newColumns kiln.model s'.model ≠ []
      ∧ attainable kiln.model s'.model r (.uniform 1) = {0} := by
  obtain ⟨r, ran⟩ := exists_run_ok (x := choice { bigMSlack := .int 2 } closed fired cooled)
    (s := kiln) (by decide +kernel)
  have new : (newColumns kiln.model
      ((choice { bigMSlack := .int 2 } closed fired cooled).run kiln).2.model).isEmpty = false := by
    decide +kernel
  obtain ⟨-, -, -, exactly⟩ := choice_exact rfl (by decide : (1 : Int) ≤ 2)
    (List.forall_mem_cons.mp kiln_formed).2 (fun p _ => kiln_exact.over p) ran
  refine ⟨r, _, ran, List.isEmpty_eq_false_iff.mp new, ?_⟩
  have isOpen : closed.valueAt (.uniform 1) = 0 := by
    norm_num [closed, Assignment.uniform, Polynomial.valueAt]
  have value : cooled.valueAt (.uniform 1) = 0 := by
    norm_num [cooled, Assignment.uniform, Polynomial.valueAt]
  rcases exactly (.uniform 1) kiln_admits with ⟨isClosed, -⟩ | ⟨-, attained⟩
  · rw [isOpen] at isClosed
    norm_num at isClosed
  · rw [attained, value]

/-! ## Connectives -/

/-- A connective attains the values that its rows link with those of the operands. -/
theorem Connected.attainable_eq {cfg : Config} {op : Aggregate} {operands : List Polynomial}
    {m m' : Model} {r : Polynomial} (connected : Connected cfg op operands m m' r)
    (formed : ∀ e ∈ operands, e.Formed m) (a : Assignment) :
    attainable m m' r a = {v | Links op (operands.map (·.valueAt a)) v} := by
  refine connected.added.attainable_eq fun a' kept v links => ?_
  have values : operands.map (·.valueAt a') = operands.map (·.valueAt a) :=
    map_congr_left fun e mem => (formed e mem).valueAt_congr kept
  rw [values] at links
  exact links

/-- The two connectives. -/
inductive Connective where
  | all
  | any

namespace Connective

def aggregate : Connective → Aggregate
  | all => .and
  | any => .or

/-- The linearization of a connective. -/
def linearize : Connective → Config → List Polynomial → Assembly Polynomial
  | all => conjunction
  | any => disjunction

/-- What a connective makes of values: 1 when all, or some, of them are 1, and 0 otherwise. -/
def truth : Connective → List ℚ → ℚ
  | all, values => if ∀ x ∈ values, x = 1 then 1 else 0
  | any, values => if ∃ x ∈ values, x = 1 then 1 else 0

theorem isConnective (connective : Connective) :
    connective.aggregate = .and ∨ connective.aggregate = .or := by
  cases connective with
  | all => exact .inl rfl
  | any => exact .inr rfl

theorem joins_iff (connective : Connective) {values : List ℚ} {v : ℚ}
    (binary : ∀ x ∈ values, x = 0 ∨ x = 1) :
    connective.aggregate.Joins values v ↔ v = connective.truth values := by
  cases connective with
  | all =>
    show (∀ x ∈ values, x = 0 ∨ x = 1) ∧ _ ↔ v = if ∀ x ∈ values, x = 1 then 1 else 0
    have zero_iff : 0 ∈ values ↔ ¬∀ x ∈ values, x = 1 := by
      push Not
      refine ⟨fun zero => ⟨0, zero, zero_ne_one⟩, ?_⟩
      rintro ⟨x, mem, other⟩
      exact (binary x mem).resolve_right other ▸ mem
    rw [and_iff_right binary, zero_iff]
    split <;> tauto
  | any =>
    show (∀ x ∈ values, x = 0 ∨ x = 1) ∧ _ ↔ v = if ∃ x ∈ values, x = 1 then 1 else 0
    have zeros_iff : (∀ x ∈ values, x = 0) ↔ 1 ∉ values := by
      refine ⟨fun zeros one => one_ne_zero (zeros 1 one), fun none x mem => ?_⟩
      exact (binary x mem).resolve_right fun one => none (one ▸ mem)
    rw [and_iff_right binary, zeros_iff]
    split <;> simp_all

theorem linearize_connected (connective : Connective) {cfg : Config}
    {operands : List Polynomial} {s s' : Store} {r : Polynomial}
    (formed : ∀ e ∈ operands, e.Formed s.model)
    (ran : (connective.linearize cfg operands).run s = (.ok r, s')) :
    Connected cfg connective.aggregate operands s.model s'.model r := by
  cases connective with
  | all => exact conjunction_connected formed ran
  | any => exact disjunction_connected formed ran

/-- **A connective of zeros and ones is exact.** Whenever a conjunction or disjunction of operands
with integer coefficients is linearized, the model keeps its variables and rows and has at most one
binary variable more. Wherever the operands are 0 or 1, the further variable has a value that
satisfies the further rows, and all such values make the resulting polynomial 1 if all, or some, of
the operands are 1, and 0 otherwise. At the assignments that the variables so far admit, an operand
is an integer, and it is 0 or 1 if the interval computed for it holds its value, as it does over
variables whose bounds are integers or infinite. -/
theorem linearize_attains (connective : Connective) {cfg : Config} {operands : List Polynomial}
    {s s' : Store} {r : Polynomial} (formed : ∀ e ∈ operands, e.Formed s.model)
    (ran : (connective.linearize cfg operands).run s = (.ok r, s')) :
    s.model.columns <+: s'.model.columns ∧ s.model.constraints <+: s'.model.constraints
      ∧ AddsAtMostOne .binary s.model s'.model
      ∧ (∀ a, AreBinary operands a →
        attainable s.model s'.model r a = {connective.truth (operands.map (·.valueAt a))})
      ∧ ∀ a, s.model.Admits a → ∀ e ∈ operands, (∃ n : Int, e.valueAt a = n)
        ∧ (s.model.Encloses e a → e.valueAt a = 0 ∨ e.valueAt a = 1)
        ∧ (e.ExactOver s.model → s.model.Encloses e a) := by
  have connected := connective.linearize_connected formed ran
  obtain ⟨columns, rows⟩ := connected.added.extension.isPrefix
  refine ⟨columns, rows, connected.columns, ?_, ?_⟩
  · intro a binary
    rw [connected.attainable_eq formed]
    ext v
    exact (links_iff connective.isConnective binary).trans (connective.joins_iff binary)
  · intro a admits e member
    have boolean := connected.booleans e member
    have isFormed := formed e member
    exact ⟨Model.isBoolean_whole isFormed boolean admits,
      Model.isBoolean_of_encloses isFormed boolean admits,
      fun exact => Model.encloses_of_exact exact isFormed admits.within⟩

/-- The kiln is open or closed. -/
theorem linearize_any_attains : ∃ r s',
    (linearize .any {} [opened, closed]).run kiln = (.ok r, s')
      ∧ attainable kiln.model s'.model r (.uniform 1) = {1} := by
  have formed : ∀ p ∈ [opened, closed], p.Formed kiln.model := fun p member =>
    kiln_formed p (List.mem_append_left [fired, cooled] member)
  obtain ⟨r, ran⟩ := exists_run_ok (x := linearize .any {} [opened, closed]) (s := kiln)
    (by decide +kernel)
  obtain ⟨-, -, -, attains, booleans⟩ := linearize_attains .any formed ran
  refine ⟨r, _, ran, ?_⟩
  have binary : AreBinary [opened, closed] (.uniform 1) := by
    intro x member
    obtain ⟨e, inside, rfl⟩ := List.mem_map.mp member
    obtain ⟨-, enclosed, exactly⟩ := booleans (.uniform 1) kiln_admits e inside
    exact enclosed (exactly (kiln_exact.over e))
  rw [attains (.uniform 1) binary]
  norm_num [truth, closed, opened, Assignment.uniform, Polynomial.valueAt]

/-- A model with an integer variable whose bounds are both the double 3002399751580331, and a binary
variable. -/
def scales : Store :=
  { model := {
      columns := [
        ⟨⟨"x", []⟩, .integer, some (.float 3002399751580331), some (.float 3002399751580331), "x",
          .none, false⟩,
        ⟨⟨"b", []⟩, .binary, none, none, "b", .none, false⟩]
      families := [("x", [[]]), ("b", [[]])] } }

/-- Six times the one variable less `2 ^ 54`, and the other variable. -/
def weights : List Polynomial :=
  [⟨[(⟨"x", []⟩, .int 6)], .int (-18014398509481984)⟩, ⟨[(⟨"b", []⟩, .int 1)], .int 0⟩]

def balance : Assignment where
  value key := if key.family = "x" then 3002399751580331 else 1
  respects := by
    intro k k' same
    simp only [VarKey.equal, Bool.and_eq_true, beq_iff_eq] at same
    rw [same.1]

theorem weights_formed : ∀ e ∈ weights, e.Formed scales.model := by
  simp only [weights, forall_mem_cons]
  refine ⟨?_, ?_, by simp⟩
  · exact Polynomial.formed_ofInts [(⟨"x", []⟩, 6)] (-18014398509481984) (by decide) (by decide)
  · exact Polynomial.formed_ofInts [(⟨"b", []⟩, 1)] 0 (by decide) (by decide)

theorem scales_admits : scales.model.Admits balance := by
  have ratio : (Double.ofFloat 3002399751580331).ratio? = some (6004799503160662, 2) := by
    decide +kernel
  have value : (Number.float 3002399751580331).rational? = some 3002399751580331 := by
    rw [Number.rational?, ratio]
    norm_num
  simp only [Model.Admits, scales, forall_mem_cons]
  refine ⟨⟨.inr ⟨_, value, ?_⟩, .inr ⟨_, value, ?_⟩, ⟨3002399751580331, ?_⟩⟩, ?_, by simp⟩
  · simp [balance]
  · simp [balance]
  · simp [balance]
  · exact (Variable.allows_binary _ rfl _).mpr (.inr (by simp [balance]))

/-- The double next to six times the bound is `2 ^ 54`, so the first operand passes as 0. It is 2,
and no value of the conjunction satisfies its rows. -/
theorem linearize_all_of_two : ∃ r s', (linearize .all {} weights).run scales = (.ok r, s')
    ∧ scales.model.Admits balance ∧ weights.map (·.valueAt balance) = [2, 1]
    ∧ attainable scales.model s'.model r balance = ∅ := by
  obtain ⟨r, ran⟩ := exists_run_ok (x := linearize .all {} weights) (s := scales)
    (by decide +kernel)
  have values : weights.map (·.valueAt balance) = [2, 1] := by
    have other : "b" ≠ "x" := by decide
    norm_num [weights, balance, Polynomial.valueAt, other]
  refine ⟨r, _, ran, scales_admits, values, ?_⟩
  rw [(linearize_connected .all weights_formed ran).attainable_eq weights_formed, values]
  ext v
  simp only [Set.mem_ofPred_eq, Set.mem_empty_iff_false, iff_false]
  rw [links_several _ (by decide)]
  -- the rows ask for at most 1 and for at least 2
  rintro ⟨-, below, above⟩
  have atMost := below 1 (by simp)
  norm_num at above
  linarith

end Connective

end Linearization

end LinearProgram
