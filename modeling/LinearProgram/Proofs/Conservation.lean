import LinearProgram.Proofs.Operators

/-!
# Compilation only adds to a model

Compiling a tree leaves a model as it was, apart from what uses of operators add at the end, and its
polynomial is over declared instances (`compile_grows`). The induction is on the weight of the tree.
-/

namespace LinearProgram

open List Linearization Compilation

variable {cfg : Config} {m m₁ m₂ : Model} {s s₁ : Store} {ps qs : List Polynomial}

/-! ## Steps in a row -/

theorem Model.Extends.trans (first : m.Extends cfg ps m₁) (second : m₁.Extends cfg qs m₂) :
    m.Extends cfg (ps ++ qs) m₂ := by
  refine ⟨second.ready, first.conservative.trans second.conservative, fun p mem => ?_⟩
  rcases mem_append.mp mem with old | new
  · exact (first.known p old).mono fun _ => second.conservative.knows
  · exact second.known p new

theorem Model.Extends.forget (grown : m.Extends cfg ps m₁) (fewer : ∀ q ∈ qs, q ∈ ps) :
    m.Extends cfg qs m₁ :=
  ⟨grown.ready, grown.conservative, fun q mem => grown.known q (fewer q mem)⟩

/-- What a polynomial computed from known ones is over. -/
theorem Model.Extends.result (grown : m.Extends cfg ps m₁) {r : Polynomial}
    (known : r.Over m₁.Knows) : m.Extends cfg [r] m₁ :=
  ⟨grown.ready, grown.conservative, by simpa using known⟩

theorem Grows.after {x : Assembly Polynomial} (before : m.Extends cfg ps s.model)
    (grows : Extending cfg x s) :
    Grows cfg x s fun p m' => m.Extends cfg (ps ++ [p]) m' :=
  grows.mono fun _ _ => before.trans

/-- The same, of which only the last polynomial is looked at. -/
theorem Extending.after {x : Assembly Polynomial} (grows : Extending cfg x s)
    (before : m.Extends cfg ps s.model) : Grows cfg x s fun p m' => m.Extends cfg [p] m' :=
  grows.mono fun _ _ later => (before.trans later).forget (by simp)

/-- How every subtree is compiled: the model only grows. -/
def Conserves (cfg : Config) (compileTree : Subtrees) : Prop :=
  ∀ (e : Expr) (ctx : Context) (s : Store), s.model.Ready cfg →
    Extending cfg (compileTree e ctx) s

theorem grows_mapM {α : Type} {f : α → Assembly Polynomial}
    (step : ∀ a (s : Store), s.model.Ready cfg →
      Extending cfg (f a) s)
    (l : List α) (ready : s.model.Ready cfg) :
    Grows cfg (l.mapM f) s fun ps m => s.model.Extends cfg ps m := by
  induction l generalizing s with
  | nil => exact Grows.pure ⟨ready, .refl cfg s.model, by simp⟩
  | cons a _ ih =>
    rw [mapM_cons]
    refine (step a s ready).bind fun p s₁ first => ?_
    refine (ih first.ready).bind fun ps s₂ later => Grows.pure ?_
    exact first.trans later

theorem grows_foldlM {α : Type} {f : Polynomial → α → Assembly Polynomial}
    (step : ∀ total a (s : Store), s.model.Ready cfg → total.Over s.model.Knows →
      Extending cfg (f total a) s)
    (l : List α) {total : Polynomial} (ready : s.model.Ready cfg)
    (known : total.Over s.model.Knows) :
    Extending cfg (l.foldlM f total) s := by
  induction l generalizing s total with
  | nil => exact Grows.pure (Model.extends_refl ready known)
  | cons a _ ih =>
    rw [foldlM_cons]
    refine (step total a s ready known).bind fun p s₁ first => ?_
    refine (ih first.ready (first.known p mem_cons_self)).mono fun q m later => ?_
    exact (first.trans later).forget (by simp)

/-! ## Nodes -/

theorem over_joinPolynomials {source : Expr} {op : Arithmetic} {p q r : Polynomial}
    {K : VarKey → Prop} (left : p.Over K) (right : q.Over K)
    (joined : joinPolynomials source op p q = .ok r) : r.Over K := by
  unfold joinPolynomials at joined
  split at joined
  case h_1 => exact left.add right joined
  case h_2 => exact left.sub right joined
  case h_3 => exact left.mul right joined
  case h_4 =>
    split at joined
    · exact absurd joined (raise_ne_ok _ _)
    · exact left.div joined

section Nodes

variable {compileTree : Subtrees} (conserves : Conserves cfg compileTree) {ctx : Context}
  (ready : s.model.Ready cfg)
include ready

theorem foldConstant_grows (e : Expr) :
    Extending cfg (e.foldConstant ctx) s := by
  refine Grows.lift (clashFree_foldConstant e ctx) fun p folded => ?_
  obtain ⟨value, -, read⟩ := bind_eq_ok.mp folded
  exact Model.extends_refl ready (Polynomial.over_ofValue read)

/-- A reference that is resolved names an instance of the model. -/
theorem foldReference_grows (name : Value) (indices : List Expr) :
    Extending cfg (foldReference (some s.model) name indices ctx) s := by
  refine Grows.lift (clashFree_foldReference _ name indices ctx) fun p folded => ?_
  obtain ⟨key, given, done⟩ := bind_eq_ok.mp folded
  cases done
  refine Model.extends_refl ready (Polynomial.over_ofKey ?_)
  exact (resolveReference_ok given).2

omit ready in
theorem operands_grows (e : Expr) (args : List Expr) :
    Grows cfg (operands e args ctx) s fun _ m => m = s.model := by
  unfold operands
  split
  · exact Grows.pure rfl
  · refine Grows.model_bind
      (Grows.lift_bind (Wildcard.clashFree_expand _ _ _) fun instances _ => ?_)
    exact Grows.ite (fun _ => Grows.refuse rfl) fun _ => Grows.pure rfl

omit ready in
theorem addTree_grows {total : Polynomial} (known : total.Over s.model.Knows)
    {x : Assembly Polynomial}
    (grows : Extending cfg x s) : Extending cfg (do total.add (← x)) s := by
  refine grows.bind fun p s₁ grown =>
    Grows.lift (Polynomial.plain_add _ _).clashFree fun r added => grown.result ?_
  exact (known.mono fun _ => grown.conservative.knows).add (grown.known p mem_cons_self) added

include conserves

theorem sumTrees_grows (trees : List Expr) :
    Extending cfg (sumTrees compileTree trees ctx) s :=
  grows_foldlM (fun _ tree s₁ ready known => addTree_grows known (conserves tree ctx s₁ ready))
    trees ready (Polynomial.over_const _ _)

theorem compileSummand_grows (e : Expr) :
    Extending cfg (compileSummand compileTree e ctx) s := by
  refine Grows.ite (fun _ => Grows.model_bind ?_) fun _ => conserves _ _ _ ready
  refine Grows.lift_bind (Wildcard.clashFree_expand _ _ _) fun instances _ => ?_
  exact sumTrees_grows conserves ready instances

theorem compileCondition_grows (e : Expr) :
    Extending cfg (compileCondition compileTree ctx e) s := by
  refine Grows.lift_bind (clashFree_constantCondition e ctx) fun constant tested => ?_
  cases constant with
  | none => exact conserves e ctx s ready
  | some =>
    unfold constantCondition at tested
    split at tested
    case isTrue =>
      obtain ⟨value, -, tested⟩ := bind_eq_ok.mp tested
      split at tested
      case h_1 b =>
        cases tested
        exact Grows.pure (Model.extends_refl ready (Polynomial.over_const _ _))
      case h_2 => cases tested
    case isFalse => cases tested

theorem compileAggregate_grows (op : Aggregate) (trees : List Expr) :
    Extending cfg (compileAggregate cfg compileTree op trees ctx) s := by
  have trees' : Grows cfg (trees.mapM fun e => compileTree e ctx) s
      fun ps m => s.model.Extends cfg ps m :=
    grows_mapM (fun e s₁ ready => conserves e ctx s₁ ready) trees ready
  have conditions : Grows cfg (trees.mapM (compileCondition compileTree ctx)) s
      fun ps m => s.model.Extends cfg ps m :=
    grows_mapM (fun e s₁ ready => compileCondition_grows conserves ready e) trees ready
  cases op with
  | max =>
    exact trees'.bind fun ps s₁ grown => (maximum_grows grown.ready grown.known).after grown
  | min =>
    exact trees'.bind fun ps s₁ grown => (minimum_grows grown.ready grown.known).after grown
  | and =>
    exact conditions.bind fun ps s₁ grown =>
      (conjunction_grows grown.ready grown.known).after grown
  | or =>
    exact conditions.bind fun ps s₁ grown =>
      (disjunction_grows grown.ready grown.known).after grown

theorem compileNode_grows (e : Expr) :
    Extending cfg (compileNode cfg compileTree e ctx) s := by
  refine Grows.ite (fun _ => foldConstant_grows ready e) fun _ => ?_
  cases e with
  | sumOver body gens =>
    have summed : Extending cfg ((bindings gens ctx).items.foldlM
        (fun (total : Polynomial) inner => do total.add (← compileSummand compileTree body inner))
        (Polynomial.const (.int 0))) s :=
      grows_foldlM (fun _ inner s₁ ready known =>
        addTree_grows known (compileSummand_grows conserves ready body)) _ ready
        (Polynomial.over_const _ _)
    refine summed.bind fun p s₁ grown => ?_
    cases stopped : (bindings gens ctx).stop with
    | none => exact Grows.pure grown
    | some e => exact Grows.excused ((clashFree_bindings gens ctx).stop e stopped)
  | sum args =>
    exact grows_foldlM (fun _ arg s₁ ready known =>
      addTree_grows known (compileSummand_grows conserves ready arg)) args ready
      (Polynomial.over_const _ _)
  | abs operand =>
    refine (conserves operand ctx s ready).bind fun p s₁ grown => ?_
    exact (absolute_grows grown.ready (grown.known p mem_cons_self)).after grown
  | aggregate op args =>
    refine (operands_grows _ args).bind fun trees s₁ same => ?_
    rw [← same] at ready ⊢
    exact compileAggregate_grows conserves ready op trees
  | ifThenElse cond yes no =>
    refine (compileCondition_grows conserves ready cond).bind fun c s₁ grown => ?_
    refine (Grows.after grown (conserves yes ctx s₁ grown.ready)).bind
      fun p s₂ grown => ?_
    refine (Grows.after grown (conserves no ctx s₂ grown.ready)).bind
      fun q s₃ grown => ?_
    refine (choice_grows grown.ready ?_ ?_ ?_).after grown
    · exact grown.known c (by simp)
    · exact grown.known p (by simp)
    · exact grown.known q (by simp)
  | piecewise operand breakpoints slopes offsets =>
    refine (conserves operand ctx s ready).bind fun p s₁ grown => ?_
    have known := grown.known p mem_cons_self
    exact (piecewise_grows grown.ready known breakpoints slopes offsets).after grown
  | ref name indices => exact foldReference_grows ready name indices
  | arith op left right =>
    refine (conserves left ctx s ready).bind fun p s₁ grown => ?_
    refine (Grows.after grown (conserves right ctx s₁ grown.ready)).bind fun q s₂ grown => ?_
    refine Grows.lift (clashFree_joinPolynomials _ op p q) fun r joined => grown.result ?_
    exact over_joinPolynomials (grown.known p (by simp)) (grown.known q (by simp)) joined
  | negate operand =>
    refine (conserves operand ctx s ready).bind fun p s₁ grown => ?_
    exact Grows.lift (Polynomial.plain_neg _).clashFree fun q negated => grown.result
      ((grown.known p mem_cons_self).neg negated)
  | each | compare | wildcard | literal | symbol | lookup | range => exact Grows.refuse rfl

end Nodes

theorem compileWithin_grows (limit : Nat) : Conserves cfg (compileWithin cfg limit) := by
  induction limit with
  | zero => exact fun e ctx s ready => Grows.refuse rfl
  | succ _ ih => exact fun e ctx s ready => compileNode_grows ih ready e

/-- Compilation only adds to a model. -/
theorem compile_grows (ready : s.model.Ready cfg) (e : Expr) (ctx : Context) :
    Extending cfg (compile cfg e ctx) s :=
  compileWithin_grows e.weight e ctx s ready

end LinearProgram
