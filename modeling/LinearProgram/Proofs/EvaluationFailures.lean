import LinearProgram.Proofs.EvaluationParts
import LinearProgram.Proofs.Substitution

/-!
# What evaluation fails with

Evaluation fails over the values at hand (`Error.IsOrdinary`), or at a node that has no value of its
own (`Expr.refusal?`). A step of evaluation adds no other failure (`Expr.failsOnly_evaluate_of`).
-/

namespace LinearProgram

open List

/-- A failure over the values at hand. -/
def Error.IsOrdinary : Error → Prop
  | refused cause => cause.kind.isOrdinary = true
  | broken _ => True

theorem tolerant_of_ordinary {allowed : Error → Prop}
    (ordinary : ∀ failure, failure.IsOrdinary → allowed failure) : Tolerant allowed where
  refused _ known _ := ordinary _ known
  worded _ _ := .inr (ordinary _ trivial)
  overflow := ordinary _ trivial
  outOfMemory := ordinary _ trivial

/-! ## Arithmetic of values -/

section Arithmetic

variable {α : Type} {allowed : Error → Prop} (broken : ∀ breakdown, allowed (.broken breakdown))

include broken

theorem failsOnly_orUnsupported (x : Option α) : FailsOnly allowed (orUnsupported x) := by
  cases x with
  | none => exact broken _
  | some => exact trivial

namespace Value

theorem failsOnly_add (x y : Value) : FailsOnly allowed (x.add y) := by
  unfold add
  split
  · cases Number.add _ _ <;> simp [orOverflow, broken]
  · exact trivial
  · exact trivial
  · exact trivial
  · exact broken _

theorem failsOnly_mul (x y : Value) : FailsOnly allowed (x.mul y) := by
  have items : ∀ {α : Type} (n : Nat) (l : List α), FailsOnly allowed (repeatItems n l) := by
    intro α n l
    unfold repeatItems
    split
    · exact broken _
    · split
      · exact broken _
      · exact trivial
  have repeats : ∀ n v, FailsOnly allowed (repeated n v) := by
    intro n v
    unfold repeated
    split <;> simp [items, broken]
  unfold mul
  split
  · cases Number.mul _ _ <;> simp [orOverflow, broken]
  · split <;> simp [repeats, broken]

end Value

end Arithmetic

/-! ## One step of evaluation -/

namespace Expr

/-- What a node is refused for, whatever the values at hand: it has no value of its own. -/
def refusal? : Expr → Option Cause
  | wildcard => some .wildcardValue
  | lookup _ wildcard _ => some .wildcardKey
  | each pattern => some (.patternValue (each pattern))
  | ref name indices => some (.notConstant (ref name indices))
  | _ => none

section Steps

variable {allowed : Error → Prop} (ordinary : ∀ failure, failure.IsOrdinary → allowed failure)

include ordinary

/-- Listing bindings adds only ordinary failures to those of the generators' trees. -/
theorem failsOnly_bindings_of {gens : List GeneratorItem}
    (each : ∀ e ∈ gens.flatMap GeneratorItem.children, ∀ ctx,
      FailsOnly allowed (e.evaluate ctx)) (ctx : Context) :
    (bindings gens ctx).FailsOnly allowed := by
  have := tolerant_of_ordinary ordinary
  refine ends_bindings (fun gens _ => ∀ e ∈ gens.flatMap GeneratorItem.children,
    ∀ ctx, FailsOnly allowed (e.evaluate ctx)) (fun _ => trivial) ?_ ?_ each
  · intro cond rest ctx each
    rw [flatMap_cons, forall_mem_append] at each
    exact ⟨failsOnly_filterVerdict (.inr (ordinary _ trivial)) (each.1 cond mem_cons_self ctx),
      each.2⟩
  · intro name domain rest ctx each
    rw [flatMap_cons, forall_mem_append] at each
    refine ends_domainValues (fun _ _ _ _ => each.2) (fun _ _ => trivial) ?_
    rintro e rfl
    exact ⟨.inr (ordinary _ trivial), fun _ => each.1 e mem_cons_self ctx⟩

/-- One step of evaluation: besides what the subtrees fail with, there are ordinary failures and
the refusal of the node itself. -/
theorem failsOnly_evaluate_of {e : Expr}
    (here : ∀ cause, e.refusal? = some cause → allowed (.refused cause))
    (below : ∀ c ∈ e.children, ∀ ctx, FailsOnly allowed (c.evaluate ctx))
    (ctx : Context) : FailsOnly allowed (e.evaluate ctx) := by
  have := tolerant_of_ordinary ordinary
  have broken : ∀ breakdown, allowed (.broken breakdown) := fun _ => ordinary _ trivial
  have worded : ∀ e, Worded allowed e := fun _ => .inr (broken _)
  have refused : ∀ {α : Type} {cause : Cause}, e.refusal? = some cause →
      FailsOnly allowed (raise cause : Except Error α) :=
    fun known => FailsOnly.raise (here _ known) (broken _)
  have number : ∀ c ∈ e.children, ∀ ctx, FailsOnly allowed (c.evaluateNumber ctx) :=
    fun c mem ctx => ends_evaluateNumber (worded c) (below c mem ctx)
  cases e with
  | wildcard | each | ref => exact refused rfl
  | literal => exact trivial
  | symbol name => exact failsOnly_resolve ctx name
  | lookup container key dot =>
    refine ends_evaluate_lookup (below container (by simp [children]) ctx)
      (fun c k _ _ => Value.ends_lookup (fun _ _ => trivial) (.inr (broken _))
        fun _ _ _ _ _ => trivial) ?_
      (fun _ _ _ _ _ => trivial) (fun _ _ => trivial) fun _ => below key (by simp [children]) ctx
    rintro rfl
    exact refused rfl
  | arith op left right =>
    rw [Expr.evaluate]
    refine (number left (by simp [children]) ctx).bind_number fun x _ => ?_
    refine (number right (by simp [children]) ctx).bind_number fun y _ => ?_
    exact (failsOnly_applyArithmetic (worded _) op x y).bind fun _ _ _ => trivial
  | negate operand | abs operand =>
    rw [Expr.evaluate]
    exact (number operand (by simp [children]) ctx).bind_number fun _ _ => trivial
  | compare op left right =>
    rw [Expr.evaluate]
    refine (below left (by simp [children]) ctx).bind fun l _ _ => ?_
    refine (below right (by simp [children]) ctx).bind fun r _ _ => ?_
    exact Value.ends_compareBy (fun _ => trivial) (Tolerant.ends_raise rfl (.inr (broken _)))
      (fun _ _ _ => trivial) fun _ => broken
  | range start stop =>
    rw [Expr.evaluate]
    refine (number start (by simp [children]) ctx).bind_number fun x _ => ?_
    refine (number stop (by simp [children]) ctx).bind_number fun y _ => ?_
    exact (ends_integerRange x y).failsOnly
  | sum args =>
    rw [Expr.evaluate]
    refine Ends.bind (ends_evaluateSum (fun _ _ _ => trivial) (fun e mem => number e mem ctx)
      trivial) fun _ _ _ => trivial
  | sumOver body gens =>
    have listed := failsOnly_bindings_of ordinary
      (fun e known => below e (mem_cons_of_mem _ known)) ctx
    exact (ends_evaluate_sumOver (fun _ _ _ => trivial) listed
      (fun inner _ => number body mem_cons_self inner) trivial).failsOnly
  | aggregate op args =>
    have each : ∀ e ∈ args, Worded allowed e ∧ FailsOnly allowed (e.evaluate ctx) :=
      fun e mem => ⟨worded e, below e mem ctx⟩
    cases op with
    | and => exact (failsOnly_evaluateAll each).bind fun _ _ _ => trivial
    | or => exact (failsOnly_evaluateAny each).bind fun _ _ _ => trivial
    | max | min =>
      refine (ends_evaluateNumbers fun e mem => number e mem ctx).bind fun xs _ _ => ?_
      exact (failsOnly_extremum _ xs).bind fun _ _ _ => trivial
  | ifThenElse cond yes no =>
    rw [Expr.evaluate]
    refine (below cond (by simp [children]) ctx).bind fun v _ _ => ?_
    refine (failsOnly_requireTruth (worded cond) v).bind fun b _ _ => ?_
    split
    · exact below yes (by simp [children]) ctx
    · exact below no (by simp [children]) ctx
  | piecewise operand =>
    rw [Expr.evaluate]
    refine (number operand (by simp [children]) ctx).bind_number fun x _ => ?_
    refine ends_evaluatePiecewise (fun v _ => ⟨failsOnly_orUnsupported broken _,
      failsOnly_orUnsupported broken _⟩) fun slope _ intercept _ => ?_
    exact (Value.failsOnly_mul broken _ _).bind fun y _ _ => Value.failsOnly_add broken y intercept

end Steps

/-! ## Whole evaluations -/

variable {e : Expr}

/-- What the evaluation of a tree may fail with: something ordinary, or the refusal of a node. -/
def Explains (e : Expr) (failure : Error) : Prop :=
  failure.IsOrdinary
    ∨ ∃ node ∈ e.walk, ∃ cause, node.refusal? = some cause ∧ failure = .refused cause

theorem Explains.of_child {c : Expr} {failure : Error} (mem : c ∈ e.children)
    (explains : c.Explains failure) : e.Explains failure := by
  rcases explains with ordinary | ⟨node, inside, known⟩
  · exact .inl ordinary
  · exact .inr ⟨node, mem_walk_of_child mem inside, known⟩

theorem failsOnly_evaluate (e : Expr) (ctx : Context) :
    FailsOnly e.Explains (e.evaluate ctx) := by
  induction e using induction_on_children generalizing ctx with
  | step e ih =>
    refine failsOnly_evaluate_of (fun failure ordinary => .inl ordinary)
      (fun cause known => .inr ⟨e, mem_walk_self e, cause, known, rfl⟩) (fun c mem ctx => ?_)
      ctx
    exact (ih c mem ctx).mono fun failure => Explains.of_child mem

/-! ## Constant trees -/

mutual

/-- The nodes of a tree in recursive preorder: the node, then those of its subtrees from left to
right. The subtrees of a sum over generators are its body, the domains and the filters. -/
def preorder : Expr → List Expr
  | wildcard => [wildcard]
  | literal value => [literal value]
  | symbol name => [symbol name]
  | ref name indices => ref name indices :: preorderAll indices
  | lookup container key dot => lookup container key dot :: (preorder container ++ preorder key)
  | arith op left right => arith op left right :: (preorder left ++ preorder right)
  | negate operand => negate operand :: preorder operand
  | compare op left right => compare op left right :: (preorder left ++ preorder right)
  | range start stop => range start stop :: (preorder start ++ preorder stop)
  | sum args => sum args :: preorderAll args
  | sumOver body gens =>
    sumOver body gens :: (preorder body ++ preorderItems gens)
  | each pattern => each pattern :: preorder pattern
  | abs operand => abs operand :: preorder operand
  | aggregate op args => aggregate op args :: preorderAll args
  | ifThenElse cond yes no =>
    ifThenElse cond yes no
      :: (preorder cond ++ preorder yes ++ preorder no)
  | piecewise operand breakpoints slopes offsets =>
    piecewise operand breakpoints slopes offsets :: preorder operand

def preorderAll : List Expr → List Expr
  | [] => []
  | e :: rest => preorder e ++ preorderAll rest

def preorderItems : List GeneratorItem → List Expr
  | [] => []
  | item :: rest => preorderItem item ++ preorderItems rest

def preorderItem : GeneratorItem → List Expr
  | .generator _ domain => preorderDatum domain
  | .filter cond => preorder cond

def preorderDatum : Datum → List Expr
  | .data _ => []
  | .tree e => preorder e

end

theorem preorderAll_eq (trees : List Expr) : preorderAll trees = trees.flatMap preorder := by
  induction trees with
  | nil => rfl
  | cons _ _ ih => rw [preorderAll, ih, flatMap_cons]

theorem preorderItems_eq (items : List GeneratorItem) :
    preorderItems items = (items.flatMap GeneratorItem.children).flatMap preorder := by
  induction items with
  | nil => rfl
  | cons item _ ih =>
    have first : preorderItem item = item.children.flatMap preorder := by
      cases item with
      | filter => simp [preorderItem, GeneratorItem.children]
      | generator _ domain =>
        cases domain <;> simp [preorderItem, preorderDatum, GeneratorItem.children]
    rw [preorderItems, ih, first, flatMap_cons, flatMap_append]

theorem preorder_eq (e : Expr) : e.preorder = e :: e.children.flatMap preorder := by
  cases e <;> simp [preorder, children, preorderAll_eq, preorderItems_eq]

theorem walk_eq_preorder (e : Expr) : e.walk = e.preorder := by
  induction e using induction_on_children with
  | step e ih => rw [walk_eq, preorder_eq, flatMap_congr ih]

/-- Of the nodes without a value of their own, only patterns stand in constant trees. -/
theorem refusal_of_isConstant (constant : e.isConstant = true) {node : Expr}
    (inside : node ∈ e.walk) {cause : Cause} (refused : node.refusal? = some cause) :
    ∃ pattern, node = each pattern ∧ cause = .patternValue node := by
  have isClosed : ∀ node ∈ e.walk, node.isOpen = false := by
    intro node inside
    simpa using all_eq_true.mp constant node inside
  cases node with
  | each pattern =>
    cases refused
    exact ⟨pattern, rfl, rfl⟩
  | wildcard | ref => exact absurd (isClosed _ inside) (by simp [isOpen])
  | lookup container key dot =>
    cases key with
    | wildcard =>
      have below : wildcard ∈ (lookup container wildcard dot).walk :=
        mem_walk_of_child (by simp [children]) (mem_walk_self wildcard)
      exact absurd (isClosed _ (mem_walk_trans inside below)) (by simp [isOpen])
    | _ => cases refused
  | _ => cases refused

/-- The walk over a tree lists its nodes in recursive preorder. A tree in which it finds no variable
and no wildcard is never refused as one that is not constant, and is refused over a wildcard only if
it holds a pattern. -/
theorem evaluate_of_isConstant (e : Expr) :
    e.walk = e.preorder
      ∧ (e.isConstant = true → ∀ ctx cause, e.evaluate ctx = .error (.refused cause) →
          (∀ source, cause ≠ .notConstant source)
            ∧ (cause.kind = .ambiguousWildcard → ∃ pattern, each pattern ∈ e.walk)) := by
  refine ⟨walk_eq_preorder e, fun constant ctx cause failed => ?_⟩
  rcases (failsOnly_evaluate e ctx).of_error failed with
    ordinary | ⟨node, inside, known, refused, same⟩
  · constructor
    · rintro source rfl
      cases ordinary
    · intro wild
      simp [Error.IsOrdinary, wild, ErrorKind.isOrdinary] at ordinary
  · obtain ⟨pattern, rfl, rfl⟩ := refusal_of_isConstant constant inside refused
    cases same
    exact ⟨nofun, fun _ => ⟨pattern, inside⟩⟩

def dearest : Expr :=
  sumOver (aggregate .max [each (lookup (symbol "cost") (symbol "i") false)])
    [.generator "i" (.tree (range (literal (.int 1)) (literal (.int 4)))),
      .filter (compare .gt (symbol "i") (literal (.int 2)))]

theorem evaluate_dearest :
    dearest.isConstant = true
      ∧ dearest.evaluate {} = .error (.refused
          (.patternValue (each (lookup (symbol "cost") (symbol "i") false))))
      ∧ ∃ pattern, each pattern ∈ dearest.walk := by
  have constant : dearest.isConstant = true := by decide +kernel
  have failed : dearest.evaluate {} = .error (.refused
      (.patternValue (each (lookup (symbol "cost") (symbol "i") false)))) := rfl
  exact ⟨constant, failed,
    ((evaluate_of_isConstant dearest).2 constant {} _ failed).2 rfl⟩

end Expr

end LinearProgram
