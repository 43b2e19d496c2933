import LinearProgram.Proofs.Piecewise

/-!
# Graphs of piecewise linear functions

A linearized piecewise linear function attains the value of each piece that holds its operand: of
both at a breakpoint where it jumps, and of none outside the outer breakpoints
(`Pieces.linearize_graph`). Its evaluation at an integer takes the first such piece.
-/

namespace LinearProgram

open List

variable {x : ℚ}

/-- A numbered family of integers as the data of an operator. -/
def Value.ints {n : Nat} (f : Fin n → Int) : List Value := List.ofFn fun k => .int (f k)

theorem Value.ints_succ {n : Nat} (f : Fin (n + 1) → Int) :
    ints f = .int (f 0) :: ints fun k => f k.succ :=
  ofFn_succ

theorem Value.whole_of_mem_ints {n : Nat} {f : Fin n → Int} {x : Value} (mem : x ∈ ints f) :
    ∃ i : Int, x = .int i := by
  obtain ⟨k, rfl⟩ := mem_ofFn.mp mem
  exact ⟨f k, rfl⟩

/-! ## Numbered pieces -/

section Numbered

variable {n : Nat} {b : Fin (n + 1) → Int} {t i : Fin n → Int}

/-- The piece between two neighbouring breakpoints. -/
def Segment.between (b : Fin (n + 1) → Int) (t i : Fin n → Int) (k : Fin n) : Segment :=
  ⟨b k.castSucc, b k.succ, t k, i k⟩

theorem Segment.ofData_ints (b : Fin (n + 1) → Int) (t i : Fin n → Int) :
    ofData (Value.ints b) (Value.ints t) (Value.ints i) = List.ofFn (between b t i) := by
  induction n with
  | zero => rfl
  | succ n ih =>
    rw [Value.ints_succ b, Value.ints_succ t, Value.ints_succ i,
      Value.ints_succ fun k => b k.succ, ofData, ← Value.ints_succ fun k => b k.succ, ih,
      ofFn_succ]
    rfl

theorem requireLessEq_int (x y : Int) : requireLessEq (.int x) (.int y) = .ok (decide (x ≤ y)) := by
  simp only [requireLessEq, Linearization.ordered?_int, ← Std.isLE_compare]
  cases compare x y <;> rfl

/-- One step of the evaluation: the first piece gives the value if it holds the argument. -/
theorem evaluateSegments_int (x low high slope intercept : Int)
    (points slopes offsets : List Value) :
    evaluateSegments (.int x) (.int low :: .int high :: points) (.int slope :: slopes)
        (.int intercept :: offsets)
      = if low ≤ x ∧ x ≤ high then .ok (some (.int (slope * x + intercept)))
        else evaluateSegments (.int x) (.int high :: points) slopes offsets := by
  have lower : requireLessEq (.int low) (.number (.int x)) = .ok (decide (low ≤ x)) :=
    requireLessEq_int low x
  have upper : requireLessEq (.number (.int x)) (.int high) = .ok (decide (x ≤ high)) :=
    requireLessEq_int x high
  rw [evaluateSegments, lower, upper]
  by_cases above : low ≤ x
  · by_cases below : x ≤ high
    · rw [if_pos ⟨above, below⟩, decide_eq_true above, decide_eq_true below]
      rfl
    · rw [if_neg fun both => below both.2, decide_eq_true above, decide_eq_false below]
      rfl
  · rw [if_neg fun both => above both.1, decide_eq_false above]
    rfl

/-- The evaluation ends at the first piece that holds the argument. -/
theorem evaluateSegments_first {x : Int} {k : Fin n} (holds : b k.castSucc ≤ x ∧ x ≤ b k.succ)
    (first : ∀ j < k, ¬ (b j.castSucc ≤ x ∧ x ≤ b j.succ)) :
    evaluateSegments (.int x) (Value.ints b) (Value.ints t) (Value.ints i)
      = .ok (some (.int (t k * x + i k))) := by
  induction n with
  | zero => exact k.elim0
  | succ n ih =>
    rw [Value.ints_succ b, Value.ints_succ t, Value.ints_succ i,
      Value.ints_succ fun k => b k.succ, evaluateSegments_int]
    cases k using Fin.cases with
    | zero => exact if_pos holds
    | succ k =>
      have later : ¬ (b 0 ≤ x ∧ x ≤ b (Fin.succ 0)) := first 0 k.succ_pos
      rw [if_neg later, ← Value.ints_succ fun k => b k.succ]
      exact ih holds fun j less => first j.succ (Fin.succ_lt_succ_iff.mpr less)

/-- The pieces leave no gap between the outer breakpoints. -/
theorem exists_piece (positive : 0 < n) (low : b 0 ≤ x) (high : x ≤ b (Fin.last n)) :
    ∃ k : Fin n, b k.castSucc ≤ x ∧ x ≤ b k.succ := by
  induction n with
  | zero => exact absurd positive (Nat.lt_irrefl 0)
  | succ n ih =>
    -- up to its upper end the first piece holds `x`, beyond that a later one does
    by_cases near : x ≤ b (Fin.succ 0)
    · exact ⟨0, low, near⟩
    · have more : 0 < n := by
        refine Nat.pos_of_ne_zero fun none => ?_
        subst none
        exact near high
      obtain ⟨k, holds⟩ := ih (b := fun k => b k.succ) more (not_le.mp near).le high
      exact ⟨k.succ, holds⟩

end Numbered

/-- Integer data of a piecewise linear function: breakpoints in strictly increasing order, and a
slope and an intercept for each piece between two neighbours. -/
structure Pieces where
  count : Nat
  breakpoints : Fin (count + 1) → Int
  slopes : Fin count → Int
  intercepts : Fin count → Int
  positive : 0 < count
  increasing : StrictMono breakpoints

namespace Pieces

variable (pieces : Pieces)

def linearize (cfg : Config) (e : Polynomial) : Assembly Polynomial :=
  Linearization.piecewise cfg e (Value.ints pieces.breakpoints) (Value.ints pieces.slopes)
    (Value.ints pieces.intercepts)

def expr (operand : Expr) : Expr :=
  .piecewise operand (Value.ints pieces.breakpoints) (Value.ints pieces.slopes)
    (Value.ints pieces.intercepts)

/-- Whether the closed interval of a piece holds an argument. -/
def Holds (k : Fin pieces.count) (x : ℚ) : Prop :=
  pieces.breakpoints k.castSucc ≤ x ∧ x ≤ pieces.breakpoints k.succ

/-- The values at an argument of all pieces that hold it. -/
def graph (x : ℚ) : Set ℚ :=
  {v | ∃ k, pieces.Holds k x ∧ v = pieces.slopes k * x + pieces.intercepts k}

theorem exists_first (low : pieces.breakpoints 0 ≤ x) (high : x ≤ pieces.breakpoints (Fin.last _)) :
    ∃ k, pieces.Holds k x ∧ ∀ j < k, ¬ pieces.Holds j x := by
  obtain ⟨k, least⟩ := (Set.toFinite {k | pieces.Holds k x}).exists_minimal
    (exists_piece pieces.positive low high)
  exact ⟨k, least.prop, fun j less holds => least.not_lt holds less⟩

variable {pieces}

/-- No piece holds an argument exactly when it lies outside the outer breakpoints. -/
theorem graph_eq_empty_iff :
    pieces.graph x = ∅ ↔ x < pieces.breakpoints 0 ∨ pieces.breakpoints (Fin.last _) < x := by
  constructor
  · intro none
    by_contra inside
    push Not at inside
    obtain ⟨k, holds, -⟩ := pieces.exists_first inside.1 inside.2
    have value : pieces.slopes k * x + pieces.intercepts k ∈ pieces.graph x := ⟨k, holds, rfl⟩
    rw [none] at value
    exact value
  · intro outside
    ext v
    refine iff_of_false ?_ (Set.notMem_empty v)
    rintro ⟨k, ⟨low, high⟩, -⟩
    have first : (pieces.breakpoints 0 : ℚ) ≤ pieces.breakpoints k.castSucc := by
      exact_mod_cast pieces.increasing.monotone (Fin.zero_le _)
    have last : (pieces.breakpoints k.succ : ℚ) ≤ pieces.breakpoints (Fin.last _) := by
      exact_mod_cast pieces.increasing.monotone (Fin.le_last _)
    rcases outside with below | above
    · exact absurd (first.trans low) (not_le.mpr below)
    · exact absurd (high.trans last) (not_le.mpr above)

/-- The value at an integer is that of the first piece that holds it. -/
theorem evaluate_first {n : Int} {k : Fin pieces.count} (holds : pieces.Holds k n)
    (first : ∀ j < k, ¬ pieces.Holds j n) (ctx : Context) :
    (pieces.expr (.literal (.int n))).evaluate ctx
      = .ok (.int (pieces.slopes k * n + pieces.intercepts k)) := by
  have whole : ∀ j, pieces.Holds j n
      ↔ pieces.breakpoints j.castSucc ≤ n ∧ n ≤ pieces.breakpoints j.succ := by
    intro j
    simp only [Holds, Int.cast_le]
  have found := evaluateSegments_first (t := pieces.slopes) (i := pieces.intercepts)
    ((whole k).mp holds) fun j less inside => first j less ((whole j).mpr inside)
  show evaluatePiecewise _ _ _ (.int n) = _
  rw [evaluatePiecewise, found]
  rfl

/-- The linearized function can take the values that its graph has at the operand's value. -/
theorem linearize_adds {cfg : Config} {e r : Polynomial} {s s' : Store}
    (formed : e.Formed s.model) (ran : (pieces.linearize cfg e).run s = (.ok r, s')) :
    Adds cfg s.model s'.model r.valueAt fun a v => v ∈ pieces.graph (e.valueAt a) := by
  obtain ⟨-, added⟩ := Linearization.piecewise_adds (fun _ => Value.whole_of_mem_ints)
    (fun _ => Value.whole_of_mem_ints) (fun _ => Value.whole_of_mem_ints) formed ran
  refine added.congr fun a _ v => ?_
  rw [Segment.ofData_ints]
  constructor
  · rintro ⟨k, ⟨low, high⟩, value⟩
    exact ⟨_, mem_ofFn.mpr ⟨k, rfl⟩, low, high, value⟩
  · rintro ⟨g, mem, gives⟩
    obtain ⟨k, rfl⟩ := mem_ofFn.mp mem
    exact ⟨k, ⟨gives.low, gives.high⟩, gives.value⟩

/-- **A piecewise linear function reaches exactly its graph.** Whenever a function with integer data
is linearized at a polynomial with integer coefficients, the model keeps its variables and rows, and
at every assignment the values that the resulting polynomial attains are those of the pieces that
hold the operand's value. There are none exactly when that value lies outside the outer breakpoints,
and if it is an integer inside, the evaluation of the function there is one of them: that of the
first piece that holds it. -/
theorem linearize_graph (pieces : Pieces) {cfg : Config} {e r : Polynomial} {s s' : Store}
    (formed : e.Formed s.model) (ran : (pieces.linearize cfg e).run s = (.ok r, s')) :
    s.model.columns <+: s'.model.columns ∧ s.model.constraints <+: s'.model.constraints
      ∧ ∀ a, attainable s.model s'.model r a = pieces.graph (e.valueAt a)
        ∧ (attainable s.model s'.model r a = ∅
          ↔ e.valueAt a < pieces.breakpoints 0 ∨ pieces.breakpoints (Fin.last _) < e.valueAt a)
        ∧ ∀ n : Int, e.valueAt a = n → pieces.breakpoints 0 ≤ n →
          n ≤ pieces.breakpoints (Fin.last _) → ∀ ctx, ∃ k, pieces.Holds k n
            ∧ (∀ j < k, ¬ pieces.Holds j n)
            ∧ (pieces.expr (.literal (.int n))).evaluate ctx
              = .ok (.int (pieces.slopes k * n + pieces.intercepts k))
            ∧ (pieces.slopes k * n + pieces.intercepts k : ℚ)
              ∈ attainable s.model s'.model r a := by
  have added := linearize_adds formed ran
  obtain ⟨columns, rows⟩ := added.extension.isPrefix
  refine ⟨columns, rows, fun a => ?_⟩
  have attained : attainable s.model s'.model r a = pieces.graph (e.valueAt a) :=
    added.attainable_eq fun a' kept v given => by rwa [formed.valueAt_congr kept] at given
  rw [attained]
  refine ⟨rfl, graph_eq_empty_iff, ?_⟩
  intro n value low high ctx
  obtain ⟨k, holds, first⟩ := pieces.exists_first (x := n) (by exact_mod_cast low)
    (by exact_mod_cast high)
  refine ⟨k, holds, first, evaluate_first holds first ctx, ?_⟩
  rw [value]
  exact ⟨k, holds, rfl⟩

/-- A function from -2 to 3 that jumps at 0, where it ends at 0 and goes on from 5. -/
def jump : Pieces where
  count := 2
  breakpoints := ![-2, 0, 3]
  slopes := ![1, -2]
  intercepts := ![0, 5]
  positive := by decide
  increasing := by
    intro j k
    revert j k
    decide

def pipe : Store :=
  { model := {
      columns := [⟨⟨"flow", []⟩, .continuous, none, some (.int 9), "flow", .none, false⟩]
      families := [("flow", [[]])] } }

def flow : Polynomial := Polynomial.ofKey ⟨"flow", []⟩

/-- Both values at the jump are attained, and the evaluation takes the first. -/
theorem linearize_jump_graph : ∃ r s', (jump.linearize {} flow).run pipe = (.ok r, s')
    ∧ attainable pipe.model s'.model r (.uniform 0) = {0, 5}
    ∧ (jump.expr (.literal (.int 0))).evaluate {} = .ok (.int 0) := by
  obtain ⟨r, ran⟩ := Assembly.exists_run_ok (x := jump.linearize {} flow) (s := pipe)
    (by decide +kernel)
  have formed : flow.Formed pipe.model := Polynomial.formed_ofKey rfl
  obtain ⟨-, -, reaches⟩ := linearize_graph jump formed ran
  have value : flow.valueAt (.uniform 0) = 0 := Polynomial.valueAt_ofKey _ (.uniform 0)
  obtain ⟨attained, -, evaluated⟩ := reaches (.uniform 0)
  refine ⟨r, _, ran, ?_, ?_⟩
  · rw [attained, value]
    ext v
    simp [graph, Holds, jump, Fin.exists_fin_two]
  · have inFirst : jump.Holds ⟨0, jump.positive⟩ (0 : Int) := by
      show ((-2 : Int) : ℚ) ≤ (0 : Int) ∧ ((0 : Int) : ℚ) ≤ (0 : Int)
      norm_num
    obtain ⟨k, -, first, evaluates, -⟩ :=
      evaluated 0 (by rw [value]; rfl) (by decide) (by decide) {}
    have isFirst : k = ⟨0, jump.positive⟩ := by
      by_contra other
      have later : 0 < k.val := Nat.pos_of_ne_zero fun zero => other (Fin.ext zero)
      exact first _ (Fin.lt_def.mpr later) inFirst
    rw [evaluates, isFirst]
    rfl

end Pieces

end LinearProgram
