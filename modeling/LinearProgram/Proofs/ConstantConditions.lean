import LinearProgram.Proofs.Weights
import LinearProgram.Proofs.Instances

/-!
# Conditionals whose condition is constant

The polynomial of a conditional with a constant condition is that of the branch it picks
(`choice_constant`). Still both branches are compiled first (`compile_constantCondition`), so the
other one may fail or leave something behind.
-/

namespace LinearProgram

open List

/-! ## Truth values as polynomials -/

namespace Number

/-- A double that equals an integer compares with all integers as that one does. -/
theorem compareInt_of_eq {d : Double} {k : Int} (same : d.compareInt k = some .eq) (n : Int) :
    d.compareInt n = some (compare n k) ∧ d.toInt? = some k := by
  cases ratio : d.ratio? with
  | none => cases d with
    | nan => cases same
    | infinite negative => cases negative <;> cases same
    | finite => cases ratio
  | some quotient =>
    obtain ⟨num, den⟩ := quotient
    obtain ⟨compared, positive⟩ := Double.compareInt_of_ratio ratio n
    rw [(Double.compareInt_of_ratio ratio k).1, Option.some.injEq, Int.compare_eq_eq] at same
    subst same
    have scale : (0 : Int) < den := Int.ofNat_lt.mpr positive
    constructor
    · rw [compared]
      rcases Int.lt_trichotomy n k with less | rfl | greater
      · rw [Int.compare_eq_lt.mpr less,
          Int.compare_eq_lt.mpr (Int.mul_lt_mul_of_pos_right less scale)]
      · rw [Int.compare_eq_eq.mpr rfl, Int.compare_eq_eq.mpr rfl]
      · rw [Int.compare_eq_gt.mpr greater,
          Int.compare_eq_gt.mpr (Int.mul_lt_mul_of_pos_right greater scale)]
    · simp only [Double.toInt?, ratio, Int.mul_emod_left, if_true,
        Int.mul_ediv_cancel k scale.ne']

/-- A number that equals an integer is below and above the same integers. -/
theorem compare_of_equal_int {x : Number} {k : Int} (same : x.equal (.int k) = true) (n : Int) :
    x.compare? (.int n) = some (compare k n) ∧ (Number.int n).compare? x = some (compare n k)
      ∧ x.whole? = some k := by
  cases x with
  | float y =>
    rw [equal_float_int, beq_iff_eq] at same
    obtain ⟨compared, whole⟩ := compareInt_of_eq same n
    refine ⟨?_, compared, whole⟩
    show (do pure (← Double.compareInt n (Double.ofFloat y)).swap : Option Ordering) = _
    rw [compared, ← Int.compare_swap]
    exact congrArg some Ordering.swap_swap
  | bool _ | int _ =>
    rw [equal_of_toInt rfl rfl, decide_eq_true_eq] at same
    subst same
    exact ⟨rfl, rfl, rfl⟩

end Number

namespace Model

/-- Zero and one are truth values, however they are written. -/
theorem isBoolean_const (m : Model) {x : Number} {k : Int} (same : x.equal (.int k) = true)
    (truth : k = 0 ∨ k = 1) : m.isBoolean (.const x) = .ok true := by
  have number : x.isNaN = false := by
    refine Bool.eq_false_iff.mpr fun nan => ?_
    rw [Number.equal_int_of_isNaN nan] at same
    cases same
  obtain ⟨f, converted, real, self⟩ : ∃ f, x.toFloat? = some f ∧ f.isNaN = false
      ∧ x.equal (.float f) = true := by
    cases x with
    | float y => exact ⟨y, rfl, number, Number.equal_self number⟩
    | bool c => cases c <;> exact ⟨_, rfl, by decide, by decide +kernel⟩
    | int =>
      rw [Number.equal_of_toInt rfl rfl, decide_eq_true_eq] at same
      rcases truth with rfl | rfl <;> subst same <;> exact ⟨_, rfl, by decide, by decide +kernel⟩
  have bounds : m.boundsOf (.const x) = .ok (x, x) := by
    show (do
      let l ← orOverflow x.toFloat?
      if l.isNaN then return (.negInfinity, .infinity)
      let u ← orOverflow x.toFloat?
      if u.isNaN then return (.negInfinity, .infinity)
      pure (x, x)) = Except.ok (x, x)
    rw [converted]
    show (if f.isNaN then _ else if f.isNaN then _ else _) = _
    rw [real]
    rfl
  have below : x.less (.int 0) = false := by
    rw [Number.less, (Number.compare_of_equal_int same 0).1]
    rcases truth with rfl | rfl <;> rfl
  have above : Number.less (.int 1) x = false := by
    rw [Number.less, (Number.compare_of_equal_int same 1).2.1]
    rcases truth with rfl | rfl <;> rfl
  have whole : isWholeCoefficient x = .ok true := by
    rw [isWholeCoefficient, converted]
    show Except.ok (x.whole?.isSome && x.equal (.float f)) = _
    rw [(Number.compare_of_equal_int same 0).2.2, self]
    rfl
  rw [isBoolean, bounds]
  show (if x.less (.int 0) || Number.less (.int 1) x then pure false
    else do if ← isWholeCoefficient x then m.areWholeTerms [] else pure false) = _
  rw [below, above, whole]
  rfl

end Model

namespace Compilation

open Assembly

variable {cfg : Config} {cond yes no : Expr} {ctx : Context} {b : Bool}
  {v : Value}

/-- The condition of a truth value is the number zero or one. -/
theorem compileCondition_truth (constant : cond.isConstant = true)
    (value : cond.evaluate ctx = .ok v) (truth : requireTruth cond v = .ok b) :
    ∃ x : Number, x.equal (.int (if b then 1 else 0)) = true
      ∧ compileCondition (compile cfg) ctx cond = pure (.const x) := by
  unfold requireTruth at truth
  split at truth
  case h_1 c =>
    cases truth
    refine ⟨.int (if b then 1 else 0), by cases b <;> decide, ?_⟩
    simp only [compileCondition, constantCondition, constant, if_true, value]
    rfl
  case h_2 x notBool =>
    -- a number is compiled like any other constant
    have compiled : compileCondition (compile cfg) ctx cond = pure (.const x) := by
      have folded : Polynomial.ofNumber x = .ok (.const x) := by
        unfold Polynomial.ofNumber
        split
        · exact absurd rfl (notBool _)
        · rfl
      have unread : constantCondition cond ctx = .ok none := by
        simp only [constantCondition, constant, if_true, value]
        cases x with
        | bool c => exact absurd rfl (notBool c)
        | int | float => rfl
      rw [compileCondition, unread]
      show compile cfg cond ctx = _
      rw [compile_of_isConstant constant, Expr.foldConstant, value]
      show (liftM (Polynomial.ofNumber x) : Assembly Polynomial) = _
      rw [folded]
      rfl
    refine ⟨x, ?_, compiled⟩
    split at truth
    case isTrue zero =>
      cases truth
      exact zero
    case isFalse =>
      split at truth
      · cases truth
        assumption
      · exact absurd truth (raise_ne_ok _ _)
  case h_3 => exact absurd truth (raise_ne_ok _ _)

theorem choice_constant {x : Number} (same : x.equal (.int (if b then 1 else 0)) = true)
    (p q : Polynomial) :
    Linearization.choice cfg (.const x) p q = pure (if b then p else q) := by
  have boolean : ∀ m : Model, m.isBoolean (.const x) = .ok true := fun m =>
    m.isBoolean_const same (by cases b <;> decide)
  have truthy : x.truthy = b := by
    rw [Number.truthy, Number.isZero, Number.equal, (Number.compare_of_equal_int same 0).1]
    cases b <;> rfl
  unfold Linearization.choice
  simp only [boolean]
  rw [← truthy]
  rfl

/-- Both branches are compiled before one of them is picked. -/
theorem compile_constantCondition (constant : cond.isConstant = true)
    (value : cond.evaluate ctx = .ok v) (truth : requireTruth cond v = .ok b)
    (isOpen : (Expr.ifThenElse cond yes no).isConstant = false) :
    compile cfg (.ifThenElse cond yes no) ctx = (do
      let whenTrue ← compile cfg yes ctx
      let whenFalse ← compile cfg no ctx
      pure (if b then whenTrue else whenFalse)) := by
  obtain ⟨x, same, condition⟩ := compileCondition_truth constant value truth
  rw [compile_eq]
  unfold compileNode
  rw [if_neg (by rw [isOpen]; decide)]
  dsimp only
  rw [condition, pure_bind]
  simp only [choice_constant same]

end Compilation

/-! ## Steps that only read -/

namespace Assembly

variable {α β σ : Type} {f : σ → α → Assembly σ}

/-- A step that leaves the store as it was, whether it succeeds or not. -/
def ReadOnly (x : Assembly α) : Prop := ∀ s, (x.run s).2 = s

theorem ReadOnly.pure (a : α) : ReadOnly (pure a : Assembly α) := fun _ => rfl

theorem ReadOnly.lift (result : Except Error α) : ReadOnly (liftM result : Assembly α) :=
  fun _ => rfl

theorem ReadOnly.model : ReadOnly Assembly.model := fun _ => rfl

theorem ReadOnly.bind {x : Assembly α} {f : α → Assembly β} (first : ReadOnly x)
    (rest : ∀ a, ReadOnly (f a)) : ReadOnly (x >>= f) := by
  intro s
  have unchanged := first s
  rw [run_bind]
  split
  case h_1 a s' ran =>
    rw [ran] at unchanged
    rw [rest a s']
    exact unchanged
  case h_2 e s' ran =>
    rw [ran] at unchanged
    exact unchanged

theorem ReadOnly.lift_bind {result : Except Error α} {f : α → Assembly β}
    (rest : ∀ a, result = .ok a → ReadOnly (f a)) : ReadOnly (liftM result >>= f) := by
  cases result with
  | ok a => exact rest a rfl
  | error => exact fun _ => rfl

theorem ReadOnly.foldlM {l : List α} (step : ∀ b, ∀ a ∈ l, ReadOnly (f b a)) (b : σ) :
    ReadOnly (l.foldlM f b) := by
  induction l generalizing b with
  | nil => exact .pure b
  | cons a _ ih =>
    rw [foldlM_cons]
    exact (step b a mem_cons_self).bind fun b' =>
      ih (fun c a' mem => step c a' (mem_cons_of_mem a mem)) b'

theorem ReadOnly.foldListing {listing : Listing α} (step : ∀ b a, ReadOnly (f b a)) (b : σ) :
    ReadOnly (foldListing listing f b) := by
  unfold Assembly.foldListing
  refine (ReadOnly.foldlM (fun b a _ => step b a) b).bind fun result => ?_
  split
  · exact fun _ => rfl
  · exact .pure result

theorem ReadOnly.run_ok {x : Assembly α} (readOnly : ReadOnly x) {s s' : Store} {a : α}
    (ran : x.run s = (.ok a, s')) : s' = s := by
  have unchanged := readOnly s
  rw [ran] at unchanged
  exact unchanged

end Assembly

/-! ## Trees without auxiliary variables -/

namespace Expr

/-- The operators that take auxiliary variables when they are applied to decision variables. -/
def isNonlinear : Expr → Bool
  | abs _ | aggregate _ _ | ifThenElse _ _ _ | piecewise _ _ _ _ => true
  | _ => false

/-- Whether the nonlinear operators of a tree are all over constants. -/
def isLinear (e : Expr) : Bool := e.walk.all fun node => !node.isNonlinear || node.isConstant

theorem isLinear_iff {e : Expr} :
    e.isLinear = true ↔ (e.isNonlinear = false ∨ e.isConstant = true)
      ∧ ∀ c ∈ e.children, c.isLinear = true := by
  rw [isLinear, walk_eq, all_cons, all_flatMap, Bool.and_eq_true, all_eq_true,
    Bool.or_eq_true, Bool.not_eq_true']
  rfl

/-- What becomes of a constant or linear tree by replacement of wildcards is one. -/
structure Simplifies (e e' : Expr) : Prop where
  constant : e.isConstant = true → e'.isConstant = true
  linear : e.isLinear = true → e'.isLinear = true

theorem replacing_simplifies {values : List Value} : Replacing values Simplifies where
  kept _ _ := ⟨id, id⟩
  renewed {e e'} renewed := by
    have constant := renewed.isConstant (·.constant)
    refine ⟨constant, fun linear => ?_⟩
    have operator : e'.isNonlinear = e.isNonlinear := by cases renewed <;> rfl
    rw [isLinear_iff] at linear ⊢
    refine ⟨?_, fun c' inside => ?_⟩
    · rw [operator]
      exact linear.1.imp_right constant
    · obtain ⟨c, inside', ⟨-, value, -, rfl⟩ | simplifies⟩ :=
        exists_of_forall₂ renewed.children.flip inside
      · rfl
      · exact simplifies.linear (linear.2 c inside')

end Expr

namespace Compilation

open Assembly

section Reading

variable {cfg : Config} {compileTree : Subtrees} {e : Expr} {ctx : Context}
  (subtrees : ∀ t : Expr, t.isLinear = true → ∀ c, ReadOnly (compileTree t c))
include subtrees

theorem readOnly_summand (linear : e.isLinear = true) :
    ReadOnly (compileSummand compileTree e ctx) := by
  have body : ∀ b : Expr, b.isLinear = true → ReadOnly
      (if b.hasWildcard then do
          let instances ← Wildcard.expand (some (← Assembly.model)) ctx b
          sumTrees compileTree instances ctx
        else compileTree b ctx) := by
    intro b linear
    split
    · refine ReadOnly.model.bind fun m => ReadOnly.lift_bind fun instances expanded => ?_
      have each := Wildcard.expand_replacing (fun _ => ⟨id, id⟩) Expr.replacing_simplifies expanded
      exact ReadOnly.foldlM (fun total t mem =>
        (subtrees t ((each t mem).linear linear) ctx).bind fun p => .lift _) _
    · exact subtrees b linear ctx
  unfold compileSummand
  cases e with
  | each pattern => exact body pattern ((Expr.isLinear_iff.mp linear).2 pattern mem_cons_self)
  | _ => exact body _ linear

/-- A node only reads if the lower linear trees are compiled by reading. -/
theorem readOnly_node (linear : e.isLinear = true) :
    ReadOnly (compileNode cfg compileTree e ctx) := by
  obtain ⟨root, below⟩ := Expr.isLinear_iff.mp linear
  unfold compileNode
  split
  · exact .lift _
  case isFalse isOpen =>
    -- what is not constant has no nonlinear operator at its root
    have operator : e.isNonlinear = false := root.resolve_right isOpen
    cases e with
    | abs | aggregate | ifThenElse | piecewise => cases operator
    | sumOver body =>
      exact .foldListing (fun total inner =>
        (readOnly_summand subtrees (below body mem_cons_self)).bind fun p => .lift _) _
    | sum =>
      exact .foldlM (fun total arg mem =>
        (readOnly_summand subtrees (below arg mem)).bind fun p => .lift _) _
    | ref => exact ReadOnly.model.bind fun m => .lift _
    | arith _ left right =>
      refine (subtrees left (below left mem_cons_self) ctx).bind fun l => ?_
      exact (subtrees right (below right (by simp [Expr.children])) ctx).bind
        fun r => .lift _
    | negate operand =>
      exact (subtrees operand (below operand mem_cons_self) ctx).bind fun p => .lift _
    | each | compare | wildcard | literal | symbol | lookup | range => exact fun _ => rfl

end Reading

/-- A linear tree is compiled without a change to the model. -/
theorem readOnly_compile (cfg : Config) {e : Expr} (linear : e.isLinear = true)
    (ctx : Context) : ReadOnly (compile cfg e ctx) := by
  have within : ∀ limit, ∀ t : Expr, t.isLinear = true → ∀ c,
      ReadOnly (compileWithin cfg limit t c) := by
    intro limit
    induction limit with
    | zero => exact fun t _ c _ => rfl
    | succ _ ih => exact fun t linear c => readOnly_node ih linear
  exact within e.weight e linear ctx

end Compilation

/-! ## The branch that is not picked -/

namespace Assembly

variable {α : Type}

/-- Two steps that succeed from a store in the same cases, with the same result and store. -/
def SameSuccess (x y : Assembly α) (s : Store) : Prop :=
  ∀ a s', x.run s = (.ok a, s') ↔ y.run s = (.ok a, s')

/-- A step that succeeds from a store and leaves it as it was. -/
def Traceless (x : Assembly α) (s : Store) : Prop := ∃ a, x.run s = (.ok a, s)

variable {x y : Assembly α} {s : Store}

/-- What comes second without being used makes no difference exactly if it leaves no trace. -/
theorem sameSuccess_first_iff :
    SameSuccess (do let a ← x; let _ ← y; pure a) x s
      ↔ ∀ a s', x.run s = (.ok a, s') → Traceless y s' := by
  constructor
  · intro same a s' ran
    obtain ⟨a', s₁, first, rest⟩ := run_bind_ok.mp ((same a s').mpr ran)
    obtain ⟨b, s₂, second, done⟩ := run_bind_ok.mp rest
    cases ran.symm.trans first
    cases done
    exact ⟨b, second⟩
  · intro traceless a s'
    constructor
    · intro ran
      obtain ⟨a', s₁, first, rest⟩ := run_bind_ok.mp ran
      obtain ⟨b, s₂, second, done⟩ := run_bind_ok.mp rest
      obtain ⟨b', unchanged⟩ := traceless a' s₁ first
      cases second.symm.trans unchanged
      cases done
      exact first
    · intro ran
      obtain ⟨b, unchanged⟩ := traceless a s' ran
      exact run_bind_ok.mpr ⟨a, s', ran, run_bind_ok.mpr ⟨b, s', unchanged, rfl⟩⟩

/-- What comes first without being used makes no difference if it leaves no trace. -/
theorem sameSuccess_second_of_traceless (traceless : Traceless x s) :
    SameSuccess (x >>= fun _ => y >>= fun b => pure b) y s := by
  obtain ⟨a, unchanged⟩ := traceless
  intro b s'
  rw [bind_pure, run_bind, unchanged]

end Assembly

namespace Compilation

open Assembly

/-- A conditional with a constant condition compiles both branches, in order, and gives the
polynomial of the one that is picked. With the first branch picked it does what that branch alone
does exactly if the second, compiled after it, leaves no trace; with the second picked, if the first
leaves none. A linear branch that is not picked leaves none, so then all that matters is whether it
compiles where the picked one does. -/
theorem constant_condition_outcome (cfg : Config) (cond yes no : Expr)
    (ctx : Context) (v : Value) (b : Bool) (constant : cond.isConstant = true)
    (value : cond.evaluate ctx = .ok v) (truth : requireTruth cond v = .ok b)
    (isOpen : (Expr.ifThenElse cond yes no).isConstant = false) :
    let conditional := compile cfg (.ifThenElse cond yes no) ctx
    let first := compile cfg yes ctx
    let second := compile cfg no ctx
    conditional = (do
        let whenTrue ← first
        let whenFalse ← second
        pure (if b then whenTrue else whenFalse))
      ∧ (b = true → ∀ s, SameSuccess conditional first s
        ↔ ∀ p s', first.run s = (.ok p, s') → Traceless second s')
      ∧ (b = false → ∀ s, Traceless first s → SameSuccess conditional second s)
      ∧ (b = true → no.isLinear = true → ∀ s, SameSuccess conditional first s
        ↔ ∀ p s', first.run s = (.ok p, s') → ∃ q s'', second.run s' = (.ok q, s''))
      ∧ (b = false → yes.isLinear = true → ∀ s, SameSuccess conditional second s
        ↔ ∀ q s', second.run s = (.ok q, s') → ∃ p s'', first.run s = (.ok p, s'')) := by
  intro conditional first second
  have equation : conditional = (do
      let whenTrue ← first
      let whenFalse ← second
      pure (if b then whenTrue else whenFalse)) :=
    compile_constantCondition constant value truth isOpen
  refine ⟨equation, ?_, ?_, ?_, ?_⟩
  · rintro rfl s
    rw [equation]
    exact sameSuccess_first_iff
  · rintro rfl s traceless
    rw [equation]
    exact sameSuccess_second_of_traceless traceless
  · rintro rfl linear s
    rw [equation]
    refine sameSuccess_first_iff.trans (forall₃_congr fun p s' ran => ?_)
    exact ⟨fun ⟨q, unchanged⟩ => ⟨q, s', unchanged⟩, fun ⟨q, s'', compiled⟩ =>
      ⟨q, (readOnly_compile cfg linear ctx).run_ok compiled ▸ compiled⟩⟩
  · rintro rfl linear s
    rw [equation]
    constructor
    · intro same q s' ran
      obtain ⟨p, s'', compiled, _⟩ := run_bind_ok.mp ((same q s').mpr ran)
      exact ⟨p, s'', compiled⟩
    · intro compiles
      cases outcome : first.run s with
      | mk result => cases result with
        | ok p =>
          have same := (readOnly_compile cfg linear ctx).run_ok outcome
          exact sameSuccess_second_of_traceless ⟨p, same ▸ outcome⟩
        | error =>
          -- neither can succeed: the first branch stops the conditional
          intro q s'
          constructor
          · intro ran
            obtain ⟨p, s'', compiled, _⟩ := run_bind_ok.mp ran
            cases outcome.symm.trans compiled
          · intro ran
            obtain ⟨p, s'', compiled⟩ := compiles q s' ran
            cases outcome.symm.trans compiled

/-- A model of what is sold and what is held, three at most of each. -/
def shop : Store :=
  { model := {
      columns := [
        ⟨⟨"sold", []⟩, .continuous, some (.int 0), some (.int 3), "sold", .none, false⟩,
        ⟨⟨"held", []⟩, .continuous, some (.int 0), some (.int 3), "held", .none, false⟩]
      families := [("sold", [[]]), ("held", [[]])] } }

def sold : Expr := .ref (.str "sold") []

def held : Expr := .ref (.str "held") []

def rated : Expr := .compare .ne (.symbol "rate") (.literal (.int 0))

def atRate (n : Int) : Context := { parameters := { table := [("rate", .int n)] } }

/-- With a rate, what is sold is picked, and what is held makes no difference. -/
theorem sold_picked :
    rated.isConstant = true ∧ rated.evaluate (atRate 2) = .ok (.bool true)
      ∧ (Expr.ifThenElse rated sold held).isConstant = false
      ∧ SameSuccess (compile {} (.ifThenElse rated sold held) (atRate 2))
        (compile {} sold (atRate 2)) shop := by
  refine ⟨by decide, rfl, by decide, ?_⟩
  have outcome := constant_condition_outcome {} rated sold held (atRate 2) (.bool true) true
    (by decide) rfl rfl (by decide)
  refine (outcome.2.2.2.1 rfl (by decide) shop).mpr fun p s' ran => ?_
  rw [(readOnly_compile {} (by decide) (atRate 2)).run_ok ran]
  obtain ⟨q, compiled⟩ := exists_run_ok (x := compile {} held (atRate 2)) (s := shop)
    (by decide +kernel)
  exact ⟨q, _, compiled⟩

/-- The branch that is not picked makes a difference: a quotient guarded against the rate zero fails
at that rate, and a maximum that is not picked leaves its auxiliary variables in the model. -/
theorem unpicked_branch_noticed :
    (rated.evaluate (atRate 0) = .ok (.bool false)
        ∧ ((compile {} sold (atRate 0)).run shop).1.toBool = true
        ∧ ((compile {} (.ifThenElse rated (.arith .div sold (.symbol "rate")) sold)
          (atRate 0)).run shop).1.toBool = false)
      ∧ rated.evaluate (atRate 2) = .ok (.bool true)
        ∧ ((compile {} sold (atRate 2)).run shop).2.model.columns.map (·.name) = ["sold", "held"]
        ∧ ((compile {} (.ifThenElse rated sold (.aggregate .max [sold, held]))
          (atRate 2)).run shop).2.model.columns.map (·.name)
          = ["sold", "held", "aux_max(1)", "aux_max_sel(1,1)", "aux_max_sel(1,2)"] :=
  ⟨⟨rfl, by decide +kernel, by decide +kernel⟩, rfl, by decide +kernel, by decide +kernel⟩

end Compilation

end LinearProgram
