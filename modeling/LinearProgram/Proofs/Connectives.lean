import LinearProgram.Proofs.Selection

/-!
# Connectives and choices

Conjunction, disjunction and choice on values that are 0 or 1. What the rows amount to is said about
rational numbers (`links_iff`, `chooses_iff`).
-/

namespace LinearProgram

open List

variable {done : Unit} {m : Model}

/-- What a choice between two values makes of its condition. -/
def Chooses (c x y v : ℚ) : Prop := c = 1 ∧ v = x ∨ c = 0 ∧ v = y

namespace Linearization

open Assembly

variable {cfg : Config} {free : Prop} {s s' : Store}

/-! ## Connectives -/

section Connective

variable {xs : List ℚ} {z : ℚ}

section

variable (binary : ∀ x ∈ xs, x = 0 ∨ x = 1)
include binary

theorem sum_le_length : xs.sum ≤ xs.length := by
  have each : ∀ x ∈ xs, x ≤ 1 := fun x mem => by rcases binary x mem with rfl | rfl <;> norm_num
  simpa using sum_le_card_nsmul xs 1 each

theorem sum_nonneg_of_binary : 0 ≤ xs.sum :=
  sum_nonneg fun x mem => by rcases binary x mem with rfl | rfl <;> norm_num

/-- The sum of zeros and ones falls short of their number exactly when there is a zero. -/
theorem zero_mem_iff :
    0 ∈ xs ↔ xs.sum ≤ xs.length - 1 := by
  induction xs with
  | nil => simp
  | cons _ _ ih =>
    rw [forall_mem_cons] at binary
    rw [mem_cons, sum_cons, length_cons]
    push_cast
    rcases binary.1 with rfl | rfl
    · have tail := sum_le_length binary.2
      exact iff_of_true (.inl rfl) (by linarith)
    · rw [ih binary.2]
      constructor
      · rintro (impossible | short)
        · norm_num at impossible
        · linarith
      · intro short
        exact .inr (by linarith)

/-- The sum of zeros and ones is positive exactly when there is a one. -/
theorem one_mem_iff :
    1 ∈ xs ↔ 1 ≤ xs.sum := by
  induction xs with
  | nil => simp
  | cons _ _ ih =>
    rw [forall_mem_cons] at binary
    rw [mem_cons, sum_cons]
    rcases binary.1 with rfl | rfl
    · rw [ih binary.2]
      simp
    · have tail := sum_nonneg_of_binary binary.2
      exact iff_of_true (.inl rfl) (by linarith)

end

/-- What the rows of a connective ask of the value they give it. -/
def RowsAllow : Aggregate → List ℚ → ℚ → Prop
  | .and, xs, z => (∀ x ∈ xs, z - x ≤ 0) ∧ 1 - (xs.length : ℚ) ≤ z - xs.sum
  | .or, xs, z => (∀ x ∈ xs, 0 ≤ z - x) ∧ z - xs.sum ≤ 0
  | _, _, _ => False

theorem conjoins_iff (binary : ∀ x ∈ xs, x = 0 ∨ x = 1) :
    (z = 0 ∨ z = 1) ∧ RowsAllow .and xs z ↔ Aggregate.and.Joins xs z := by
  have short := zero_mem_iff binary
  constructor
  · rintro ⟨isBinary, below, above⟩
    refine ⟨binary, ?_⟩
    rcases isBinary with rfl | rfl
    · exact .inr ⟨rfl, short.mpr (by linarith)⟩
    · refine .inl ⟨rfl, fun x mem => ?_⟩
      rcases binary x mem with rfl | same
      · exact absurd (below 0 mem) (by norm_num)
      · exact same
  · rintro ⟨-, ⟨rfl, all⟩ | ⟨rfl, zero⟩⟩
    · refine ⟨.inr rfl, fun x mem => by rw [all x mem]; norm_num, ?_⟩
      have bound := sum_le_length binary
      linarith
    · have bound := short.mp zero
      refine ⟨.inl rfl, fun x mem => ?_, by linarith⟩
      rcases binary x mem with rfl | rfl <;> norm_num

theorem disjoins_iff (binary : ∀ x ∈ xs, x = 0 ∨ x = 1) :
    (z = 0 ∨ z = 1) ∧ RowsAllow .or xs z ↔ Aggregate.or.Joins xs z := by
  have positive := one_mem_iff binary
  constructor
  · rintro ⟨isBinary, above, below⟩
    refine ⟨binary, ?_⟩
    rcases isBinary with rfl | rfl
    · refine .inr ⟨rfl, fun x mem => ?_⟩
      rcases binary x mem with same | rfl
      · exact same
      · exact absurd (above 1 mem) (by norm_num)
    · exact .inl ⟨rfl, positive.mpr (by linarith)⟩
  · rintro ⟨-, ⟨rfl, one⟩ | ⟨rfl, all⟩⟩
    · have bound := positive.mp one
      refine ⟨.inr rfl, fun x mem => ?_, by linarith⟩
      rcases binary x mem with rfl | rfl <;> norm_num
    · refine ⟨.inl rfl, fun x mem => by rw [all x mem]; norm_num, ?_⟩
      have bound := sum_nonneg_of_binary binary
      linarith

theorem joins_single {op : Aggregate} (connective : op = .and ∨ op = .or) {x : ℚ}
    (binary : x = 0 ∨ x = 1) : op.Joins [x] z ↔ z = x := by
  rcases connective with rfl | rfl <;> rcases binary with rfl | rfl <;> simp [Aggregate.Joins]

/-- What a linearized connective asks of its value: to be the only operand, or else to be binary and
to satisfy the rows. -/
def Links (op : Aggregate) (xs : List ℚ) (z : ℚ) : Prop :=
  xs = [z] ∨ xs.length ≠ 1 ∧ (z = 0 ∨ z = 1) ∧ RowsAllow op xs z

theorem links_single (op : Aggregate) (x : ℚ) : Links op [x] z ↔ z = x := by
  simp [Links, eq_comm]

theorem links_several (op : Aggregate) (several : xs.length ≠ 1) :
    Links op xs z ↔ (z = 0 ∨ z = 1) ∧ RowsAllow op xs z := by
  have other : xs ≠ [z] := fun same => several (by rw [same]; rfl)
  simp [Links, several, other]

/-- Of zeros and ones it asks to be what the connective makes of them. -/
theorem links_iff {op : Aggregate} (connective : op = .and ∨ op = .or)
    (binary : ∀ x ∈ xs, x = 0 ∨ x = 1) : Links op xs z ↔ op.Joins xs z := by
  by_cases single : xs.length = 1
  · obtain ⟨x, rfl⟩ := length_eq_one_iff.mp single
    rw [links_single, joins_single connective (binary x mem_cons_self)]
  · rw [links_several op single]
    rcases connective with rfl | rfl
    · exact conjoins_iff binary
    · exact disjoins_iff binary

end Connective

section ConnectiveRows

variable {m : Model} {z p : Polynomial} {operands : List Polynomial} {op : Aggregate}

theorem operandRows_states (tag : String) (rel : Relation) (formedZ : z.Formed m)
    (formed : ∀ e ∈ operands, e.Formed m) (number : Nat) :
    StatesAll m (operandRows tag rel z number operands) fun a =>
      ∀ x ∈ operands.map (·.valueAt a), rel.Relates (z.valueAt a - x) 0 := by
  induction operands generalizing number with
  | nil => exact fun _ _ mem => absurd mem not_mem_nil
  | cons _ _ ih =>
    rw [forall_mem_cons] at formed
    have first := computedRow_states (tag ++ toString number) rel
      fun d => Polynomial.sub_ok (r := d) formedZ formed.1
    refine (StatesAll.cons first (ih formed.2 (number + 1))).congr fun a => ?_
    rw [map_cons, forall_mem_cons]

/-- The row that compares `z` with the sum of the operands. -/
theorem totalRow_states (tag : String) (rel : Relation) (bound : Int) (formedZ : z.Formed m)
    (formed : ∀ e ∈ operands, e.Formed m) :
    States m (do
      let sum ← total operands
      let lhs ← z.sub sum
      pure { tag, lhs, relation := rel, rhs := .int bound }) fun a =>
        rel.Relates (z.valueAt a - (operands.map (·.valueAt a)).sum) bound := by
  intro r computed
  obtain ⟨sum, summed, computed⟩ := bind_eq_ok.mp computed
  obtain ⟨d, minus, computed⟩ := bind_eq_ok.mp computed
  cases computed
  obtain ⟨formedSum, values⟩ := total_ok formed summed
  obtain ⟨formedD, values'⟩ := Polynomial.sub_ok formedZ formedSum minus
  refine ⟨formedD, ⟨bound, rfl⟩, fun a => ?_⟩
  rw [Row.HoldsAt, values' a, values a, Number.toRat_int]

theorem checkBooleans_ok {label : String}
    (ran : (checkBooleans label operands).run s = (.ok done, s')) :
    s = s' ∧ operands ≠ [] ∧ ∀ e ∈ operands, s.model.isBoolean e = .ok true := by
  have loop : ∀ (m : Model) (operands : List Polynomial),
      (operands.forM fun e => do
        if ← (m.isBoolean e : Except Error Bool) then pure ()
        else refuse (.operandNotBoolean label e) : Assembly Unit).run s = (.ok done, s') →
      s = s' ∧ ∀ e ∈ operands, m.isBoolean e = .ok true := by
    intro m operands ran
    induction operands with
    | nil =>
      obtain ⟨-, rfl⟩ := run_pure_ok ran
      exact ⟨rfl, by simp⟩
    | cons _ _ ih =>
      obtain ⟨_, s₁, here, later⟩ := run_bind_ok.mp ran
      obtain ⟨verdict, boolean, here⟩ := run_lift_bind_ok.mp here
      cases verdict with
      | false => exact absurd here run_refuse_ne_ok
      | true =>
        obtain ⟨-, rfl⟩ := run_pure_ok here
        obtain ⟨rfl, others⟩ := ih later
        exact ⟨rfl, forall_mem_cons.mpr ⟨boolean, others⟩⟩
  cases operands with
  | nil =>
    obtain ⟨_, _, refused, -⟩ := run_bind_ok.mp ran
    exact absurd refused run_refuse_ne_ok
  | cons e rest =>
    obtain ⟨m, s₁, read, ran⟩ := run_bind_ok.mp ran
    cases read
    obtain ⟨rfl, booleans⟩ := loop _ (e :: rest) ran
    exact ⟨rfl, cons_ne_nil e rest, booleans⟩

/-- Whether the operands are 0 or 1 at an assignment. -/
def AreBinary (operands : List Polynomial) (a : Assignment) : Prop :=
  ∀ x ∈ operands.map (·.valueAt a), x = 0 ∨ x = 1

/-- What the linearization of a connective gives: its operands have passed as boolean, and the
polynomial can take the values that the rows link with theirs. -/
structure Connected (cfg : Config) (op : Aggregate) (operands : List Polynomial) (m m' : Model)
    (p : Polynomial) : Prop where
  booleans : ∀ e ∈ operands, m.isBoolean e = .ok true
  formed : p.Formed m'
  columns : AddsAtMostOne .binary m m'
  added : Adds cfg m m' p.valueAt fun a v => Links op (operands.map (·.valueAt a)) v

theorem connected_single (op : Aggregate) (booleans : ∀ e ∈ [p], m.isBoolean e = .ok true)
    (formed : p.Formed m) : Connected cfg op [p] m m p := by
  refine ⟨booleans, formed, .inl (newColumns_self m), ?_⟩
  refine (Expresses.of_read p.valueAt ⟨rfl, rfl, rfl, rfl⟩
    fun _ _ agrees => agrees.valueAt formed).congr ?_
  intro a _ v
  exact links_single op (p.valueAt a)

/-- A binary variable and the rows of a connective. -/
theorem connected_of_rows {operation : String} {s₁ s₂ : Store} {n : Nat}
    {rows : List (Except Error Row)} (booleans : ∀ e ∈ operands, s.model.isBoolean e = .ok true)
    (formed : ∀ e ∈ operands, e.Formed s.model) (several : operands.length ≠ 1)
    (same : s.model.Same s₁.model)
    (introduced : (introduce cfg (cfg.auxiliaryWord.text ++ "_" ++ operation) [n] .binary
      none none).run s₁ = (.ok z, s₂))
    (declared : (declareRows cfg (cfg.auxiliaryWord.text ++ "_" ++ operation) n rows).run s₂
      = (.ok done, s')) (states : z.Formed s₂.model → (∀ e ∈ operands, e.Formed s₂.model) →
      StatesAll s₂.model rows fun a => RowsAllow op (operands.map (·.valueAt a)) (z.valueAt a)) :
    Connected cfg op operands s.model s'.model z := by
  obtain ⟨formedZ, first⟩ := introduce_binary_adds (isAuxiliary_family cfg operation) introduced
  have toFirst := (same.extension cfg).trans first.extension
  have second := declareRows_adds
    (states formedZ fun e mem => toFirst.formed (formed e mem)) declared
  have both := first.restrict (fun v a => RowsAllow op (operands.map (·.valueAt a)) v) second (by
    intro v a a' agrees
    rw [agrees.map_valueAt fun e mem => (same.extension cfg).formed (formed e mem)])
  refine ⟨booleans, second.extension.formed formedZ,
    .inr (newColumns_introduced same introduced declared), (both.same_left same).congr ?_⟩
  intro a _ v
  exact links_several op (by rw [length_map]; exact several)

/-- The steps that both connectives share: the check of the operands, and for several of them a
binary variable and rows. -/
theorem connected_of_run {label : String} {rows : Polynomial → List (Except Error Row)}
    (formed : ∀ e ∈ operands, e.Formed s.model)
    (states : ∀ {m : Model} {z : Polynomial}, z.Formed m → (∀ e ∈ operands, e.Formed m) →
      StatesAll m (rows z) fun a => RowsAllow op (operands.map (·.valueAt a)) (z.valueAt a))
    (ran : (connective cfg operands label rows).run s = (.ok p, s')) :
    Connected cfg op operands s.model s'.model p := by
  obtain ⟨_, s₁, checked, ran⟩ := run_bind_ok.mp ran
  obtain ⟨rfl, -, booleans⟩ := checkBooleans_ok checked
  split at ran
  case h_1 e _ =>
    obtain ⟨rfl, rfl⟩ := run_pure_ok ran
    exact connected_single op booleans (formed e mem_cons_self)
  case h_2 several =>
    have number : operands.length ≠ 1 := by
      intro single
      obtain ⟨e, only⟩ := length_eq_one_iff.mp single
      exact several e only
    obtain ⟨⟨family, n⟩, s₂, named, ran⟩ := run_bind_ok.mp ran
    obtain ⟨rfl, same⟩ := nextFamily_ok named
    obtain ⟨z, s₃, introduced, ran⟩ := run_bind_ok.mp ran
    obtain ⟨_, s₄, declared, ran⟩ := run_bind_ok.mp ran
    obtain ⟨rfl, rfl⟩ := run_pure_ok ran
    exact connected_of_rows booleans formed number same introduced declared states

theorem conjunction_connected (formed : ∀ e ∈ operands, e.Formed s.model)
    (ran : (conjunction cfg operands).run s = (.ok p, s')) :
    Connected cfg .and operands s.model s'.model p := by
  refine connected_of_run formed ?_ ran
  intro m z formedZ formed
  refine ((operandRows_states "le" .atMost formedZ formed 1).append (StatesAll.single
    (totalRow_states "all" .atLeast _ formedZ formed))).congr fun a => ?_
  simp [RowsAllow, Relation.Relates]

theorem disjunction_connected (formed : ∀ e ∈ operands, e.Formed s.model)
    (ran : (disjunction cfg operands).run s = (.ok p, s')) :
    Connected cfg .or operands s.model s'.model p := by
  refine connected_of_run formed ?_ ran
  intro m z formedZ formed
  refine ((operandRows_states "ge" .atLeast formedZ formed 1).append (StatesAll.single
    (totalRow_states "any" .atMost 0 formedZ formed))).congr fun a => ?_
  simp [RowsAllow, Relation.Relates]

theorem exists_joins_binary (connective : op = .and ∨ op = .or) {xs : List ℚ}
    (binary : ∀ x ∈ xs, x = 0 ∨ x = 1) : ∃ v, op.Joins xs v := by
  rcases connective with rfl | rfl
  · by_cases zero : 0 ∈ xs
    · exact ⟨0, binary, .inr ⟨rfl, zero⟩⟩
    · refine ⟨1, binary, .inl ⟨rfl, fun x mem => ?_⟩⟩
      exact (binary x mem).resolve_left fun same => zero (same ▸ mem)
  · by_cases one : 1 ∈ xs
    · exact ⟨1, binary, .inl ⟨rfl, one⟩⟩
    · refine ⟨0, binary, .inr ⟨rfl, fun x mem => ?_⟩⟩
      exact (binary x mem).resolve_right fun same => one (same ▸ mem)

namespace Connected

variable {m m' : Model}

theorem binary (connected : Connected cfg op operands m m' p)
    (exact : ∀ e ∈ operands, e.ExactOver m) (formed : ∀ e ∈ operands, e.Formed m) {a : Assignment}
    (admits : m.Admits a) : AreBinary operands a := by
  intro x mem
  obtain ⟨e, inside, rfl⟩ := mem_map.mp mem
  exact Model.isBoolean_ok (exact e inside) (formed e inside) (connected.booleans e inside) admits

theorem realizes (connected : Connected cfg op operands m m' p)
    (connective : op = .and ∨ op = .or) (exact : m.ExactBounds)
    (formed : ∀ e ∈ operands, e.Formed m) :
    p.Formed m' ∧ Realizes cfg free m m' p.valueAt fun a v =>
      op.Joins (operands.map (·.valueAt a)) v := by
  have binary := fun a => connected.binary (a := a) (fun e _ => exact.over e) formed
  have added : AddsWhere cfg (AreBinary operands) m m' p.valueAt fun a v =>
      op.Joins (operands.map (·.valueAt a)) v :=
    ⟨_, connected.added, fun _ binary _ => links_iff connective binary⟩
  exact ⟨connected.formed, .of_addsWhere added binary
    fun _ a admits => exists_joins_binary connective (binary a admits)⟩

end Connected

end ConnectiveRows

/-! ## Choice -/

/-- What the rows of a choice ask of the value `z` they give it, with `k` times the distance of two
bounds as big-M constants. -/
def ChoiceRowsAllow (k low high xLow xHigh yLow yHigh c x y z : ℚ) : Prop :=
  z - x + c * (k * (high - xLow)) ≤ k * (high - xLow)
    ∧ -(k * (xHigh - low)) ≤ z - x - c * (k * (xHigh - low))
    ∧ z - y - c * (k * (high - yLow)) ≤ 0 ∧ 0 ≤ z - y + c * (k * (yHigh - low))

/-- What the bounds and rows of a choice amount to, for branches within their bounds. -/
theorem chooses_iff {k c x y z xLow xHigh yLow yHigh low high : ℚ} (one : 1 ≤ k)
    (binary : c = 0 ∨ c = 1) (first : xLow ≤ x ∧ x ≤ xHigh) (second : yLow ≤ y ∧ y ≤ yHigh)
    (isLow : low = min xLow yLow) (isHigh : high = max xHigh yHigh) :
    (low ≤ z ∧ z ≤ high) ∧ ChoiceRowsAllow k low high xLow xHigh yLow yHigh c x y z
      ↔ Chooses c x y z := by
  have xl : low ≤ xLow := isLow ▸ min_le_left _ _
  have yl : low ≤ yLow := isLow ▸ min_le_right _ _
  have xh : xHigh ≤ high := isHigh ▸ le_max_left _ _
  have yh : yHigh ≤ high := isHigh ▸ le_max_right _ _
  constructor
  · rintro ⟨-, thenUpper, thenLower, elseUpper, elseLower⟩
    rcases binary with rfl | rfl
    · exact .inr ⟨rfl, by linarith⟩
    · exact .inl ⟨rfl, by linarith⟩
  · -- the branch that is not chosen stays within the big-M constants
    rintro (⟨rfl, rfl⟩ | ⟨rfl, rfl⟩)
    · have upper := slack_le (z := z) (h := high) one (by linarith) second.1 (by linarith)
      have lower := slack_le (h := yHigh) one (by linarith) (xl.trans first.1) second.2
      refine ⟨⟨?_, ?_⟩, ?_, ?_, ?_, ?_⟩ <;> linarith
    · have upper := slack_le (z := z) (h := high) one (by linarith) first.1 (by linarith)
      have lower := slack_le (h := xHigh) one (by linarith) (yl.trans second.1) first.2
      refine ⟨⟨?_, ?_⟩, ?_, ?_, ?_, ?_⟩ <;> linarith

theorem chooses_total {c x y : ℚ} (binary : c = 0 ∨ c = 1) : ∃ v, Chooses c x y v := by
  rcases binary with rfl | rfl
  · exact ⟨y, .inr ⟨rfl, rfl⟩⟩
  · exact ⟨x, .inl ⟨rfl, rfl⟩⟩

section Choice

variable {m : Model} {z c x y p : Polynomial} {k : Int}

theorem choiceRows_states {low high xLow xHigh yLow yHigh : Int} (formedZ : z.Formed m)
    (formedC : c.Formed m) (formedX : x.Formed m) (formedY : y.Formed m) :
    StatesAll m (choiceRows (.int k) z c (.int low) (.int high) x y (.int xLow, .int xHigh)
      (.int yLow, .int yHigh)) fun a => ChoiceRowsAllow k low high xLow xHigh yLow yHigh
        (c.valueAt a) (x.valueAt a) (y.valueAt a) (z.valueAt a) := by
  have thenUpper := bigMRow_states (k := k) (h := high) (l := xLow) (· + ·) Polynomial.add_ok
    "then_ub" .atMost id (fun _ => rfl) formedZ formedX formedC
  have thenLower := bigMRow_states (k := k) (h := xHigh) (l := low) (· - ·) Polynomial.sub_ok
    "then_lb" .atLeast Number.neg (fun _ => rfl) formedZ formedX formedC
  have elseUpper := bigMRow_states (k := k) (h := high) (l := yLow) (· - ·) Polynomial.sub_ok
    "else_ub" .atMost (fun _ => .int 0) (fun _ => rfl) formedZ formedY formedC
  have elseLower := bigMRow_states (k := k) (h := yHigh) (l := low) (· + ·) Polynomial.add_ok
    "else_lb" .atLeast (fun _ => .int 0) (fun _ => rfl) formedZ formedY formedC
  refine (StatesAll.cons thenUpper (StatesAll.cons thenLower (StatesAll.cons elseUpper
    (StatesAll.single elseLower)))).congr fun a => ?_
  simp [ChoiceRowsAllow, Relation.Relates]

/-- Whether an assignment keeps to the bounds of a model and gives a condition a truth value. -/
structure Decides (m : Model) (c : Polynomial) (a : Assignment) : Prop where
  within : m.Within a
  binary : c.valueAt a = 0 ∨ c.valueAt a = 1

/-- What the linearization of a choice gives: its condition has passed as boolean, and where it is 0
or 1 the polynomial is the branch it chooses. -/
structure Branched (cfg : Config) (c x y : Polynomial) (m m' : Model) (p : Polynomial) :
    Prop where
  boolean : m.isBoolean c = .ok true
  formed : p.Formed m'
  columns : AddsAtMostOne .continuous m m'
  added : AddsWhere cfg (Decides m c) m m' p.valueAt fun a v =>
    Chooses (c.valueAt a) (x.valueAt a) (y.valueAt a) v

/-- A variable between the branches' bounds and the rows of a choice. -/
theorem branched_of_rows {s₁ s₂ : Store} {family : String} {n : Nat} {xLow xHigh yLow yHigh : Int}
    (one : 1 ≤ k) (boolean : s.model.isBoolean c = .ok true) (auxiliary : cfg.IsAuxiliary family)
    (same : s.model.Same s₁.model) (formedC : c.Formed s.model) (formedX : x.Formed s.model)
    (formedY : y.Formed s.model)
    (withinX : ∀ a, s.model.Within a → (xLow : ℚ) ≤ x.valueAt a ∧ x.valueAt a ≤ xHigh)
    (withinY : ∀ a, s.model.Within a → (yLow : ℚ) ≤ y.valueAt a ∧ y.valueAt a ≤ yHigh)
    (introduced : (introduce cfg family [n] .continuous (some (.int (min xLow yLow)))
      (some (.int (max xHigh yHigh)))).run s₁ = (.ok z, s₂))
    (declared : (declareRows cfg family n (choiceRows (.int k) z c (.int (min xLow yLow))
      (.int (max xHigh yHigh)) x y (.int xLow, .int xHigh) (.int yLow, .int yHigh))).run s₂
        = (.ok done, s')) : Branched cfg c x y s.model s'.model z := by
  obtain ⟨formedZ, first⟩ := introduce_between_adds auxiliary introduced
  have toSame := same.extension cfg
  have toFirst := toSame.trans first.extension
  have second := declareRows_adds (choiceRows_states formedZ (toFirst.formed formedC)
    (toFirst.formed formedX) (toFirst.formed formedY)) declared
  -- the new variable's range, then the four rows of the choice
  have both := first.restrict (fun v a => ChoiceRowsAllow k (min xLow yLow : Int)
    (max xHigh yHigh : Int) xLow xHigh yLow yHigh (c.valueAt a) (x.valueAt a) (y.valueAt a) v)
    second (by
    intro v a a' agrees
    rw [agrees.valueAt (toSame.formed formedC), agrees.valueAt (toSame.formed formedX),
      agrees.valueAt (toSame.formed formedY)])
  refine ⟨boolean, second.extension.formed formedZ,
    .inr (newColumns_introduced same introduced declared), _, both.same_left same, fun a ok v => ?_⟩
  exact chooses_iff (by exact_mod_cast one) ok.binary (withinX a ok.within) (withinY a ok.within)
    Int.cast_min Int.cast_max

theorem branched_constant (boolean : m.isBoolean c = .ok true) (constant : c.isConstant = true)
    (formedC : c.Formed m) (formedX : x.Formed m) (formedY : y.Formed m) :
    Branched cfg c x y m m (if c.constant.truthy then x else y) := by
  obtain ⟨n, isN⟩ := formedC.constant
  have value : ∀ a : Assignment, c.valueAt a = n := fun a => by
    rw [Polynomial.valueAt_of_isConstant constant, isN, Number.toRat_int]
  have verdict : c.constant.truthy = !decide (n = 0) := by
    rw [isN, Number.truthy, Number.isZero_int]
  by_cases zero : n = 0
  · rw [verdict, zero]
    refine ⟨boolean, formedY, .inl (newColumns_self m), .of_polynomial formedY fun a _ v => ?_⟩
    simp [Chooses, value a, zero]
  · rw [verdict, decide_eq_false zero]
    refine ⟨boolean, formedX, .inl (newColumns_self m), .of_polynomial formedX fun a ok v => ?_⟩
    have isOne := ok.binary.resolve_left (by rw [value a]; exact_mod_cast zero)
    simp [Chooses, isOne]

theorem branched_affine {b d : Int} {scaled : Polynomial} (boolean : m.isBoolean c = .ok true)
    (formedC : c.Formed m) (formedY : y.Formed m) (valueX : ∀ a, x.valueAt a = b)
    (valueY : ∀ a, y.valueAt a = d) (times : c.scale (.int (b - d)) = .ok scaled)
    (summed : y.add scaled = .ok p) : Branched cfg c x y m m p := by
  obtain ⟨formedS, values⟩ := Polynomial.scale_ok formedC times
  obtain ⟨formedP, values'⟩ := Polynomial.add_ok formedY formedS summed
  refine ⟨boolean, formedP, .inl (newColumns_self m), .of_polynomial formedP fun a ok v => ?_⟩
  rw [values' a, values a, valueX, valueY]
  push_cast
  rcases ok.binary with isZero | isOne
  · simp [Chooses, isZero]
  · simp [Chooses, isOne]

/-- A choice is the first branch where the condition is 1 and the second where it is 0. -/
theorem choice_branched (slack : cfg.bigMSlack = .int k) (one : 1 ≤ k)
    (exactX : x.ExactOver s.model) (exactY : y.ExactOver s.model) (formedC : c.Formed s.model)
    (formedX : x.Formed s.model) (formedY : y.Formed s.model)
    (ran : (choice cfg c x y).run s = (.ok p, s')) :
    Branched cfg c x y s.model s'.model p := by
  obtain ⟨m, s₁, read, ran⟩ := run_bind_ok.mp ran
  cases read
  obtain ⟨verdict, boolean, ran⟩ := run_lift_bind_ok.mp ran
  cases verdict with
  | false =>
    obtain ⟨_, _, refused, -⟩ := run_bind_ok.mp ran
    exact absurd refused run_refuse_ne_ok
  | true =>
    split at ran
    case isTrue constant =>
      obtain ⟨rfl, rfl⟩ := run_pure_ok ran
      exact branched_constant boolean constant formedC formedX formedY
    case isFalse =>
      split at ran
      case isTrue constants =>
        rw [Bool.and_eq_true] at constants
        obtain ⟨b, isB⟩ := formedX.constant
        obtain ⟨d, isD⟩ := formedY.constant
        obtain ⟨step, minus, ran⟩ := run_lift_bind_ok.mp ran
        rw [isB, isD] at minus
        cases minus
        obtain ⟨scaled, times, ran⟩ := run_lift_bind_ok.mp ran
        obtain ⟨summed, rfl⟩ := run_lift_ok.mp ran
        refine branched_affine boolean formedC formedY (fun a => ?_) (fun a => ?_) times
          summed
        · rw [Polynomial.valueAt_of_isConstant constants.1, isB, Number.toRat_int]
        · rw [Polynomial.valueAt_of_isConstant constants.2, isD, Number.toRat_int]
      case isFalse =>
        obtain ⟨xRange, foundX, ran⟩ := run_lift_bind_ok.mp ran
        obtain ⟨yRange, foundY, ran⟩ := run_lift_bind_ok.mp ran
        obtain ⟨xLow, xHigh, rfl, withinX⟩ :=
          Model.finiteBoundsOf_within exactX formedX foundX
        obtain ⟨yLow, yHigh, rfl, withinY⟩ :=
          Model.finiteBoundsOf_within exactY formedY foundY
        simp only [minFirst_int, maxFirst_int, slack] at ran
        obtain ⟨⟨family, n⟩, s₄, named, ran⟩ := run_bind_ok.mp ran
        obtain ⟨rfl, same⟩ := nextFamily_ok named
        obtain ⟨z, s₅, introduced, ran⟩ := run_bind_ok.mp ran
        obtain ⟨_, s₆, declared, ran⟩ := run_bind_ok.mp ran
        obtain ⟨rfl, rfl⟩ := run_pure_ok ran
        exact branched_of_rows one boolean (isAuxiliary_family cfg "if") same formedC
          formedX formedY withinX withinY introduced declared

theorem Branched.decides {m' : Model} (branched : Branched cfg c x y m m' p)
    (exact : c.ExactOver m) (formed : c.Formed m) {a : Assignment} (admits : m.Admits a) :
    Decides m c a :=
  ⟨admits.within, Model.isBoolean_ok exact formed branched.boolean admits⟩

theorem choice_realizes (slack : cfg.bigMSlack = .int k) (one : 1 ≤ k)
    (exact : s.model.ExactBounds) (formedC : c.Formed s.model) (formedX : x.Formed s.model)
    (formedY : y.Formed s.model) (ran : (choice cfg c x y).run s = (.ok p, s')) :
    p.Formed s'.model ∧ Realizes cfg free s.model s'.model p.valueAt fun a v =>
      Chooses (c.valueAt a) (x.valueAt a) (y.valueAt a) v := by
  have branched := choice_branched slack one (exact.over x) (exact.over y) formedC formedX formedY
    ran
  have decides := fun a => branched.decides (a := a) (exact.over c) formedC
  exact ⟨branched.formed, .of_addsWhere branched.added decides
    fun _ a admits => chooses_total (decides a admits).binary⟩

end Choice

end Linearization

end LinearProgram
