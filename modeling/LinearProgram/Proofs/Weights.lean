import Mathlib.Order.Nat
import LinearProgram.Proofs.NamedWildcards

/-!
# The weight of a tree bounds its compilation

A node hands on only trees lighter than itself (`compileNode_alike`), instances of patterns included
(`Wildcard.expand_weight`), so `compile` satisfies the equation of its nodes (`compile_eq`).
-/

namespace LinearProgram

open List

variable {exact : Bool} {e : Expr} {limit k : Nat} {op : Aggregate} {trees args : List Expr}

namespace Expr

/-! ## Weights -/

theorem weight_pos (e : Expr) : 0 < e.weight := by
  rw [weight_eq_children]
  omega

theorem weight_le_of_child (low : e.weight ≤ k + 1) : ∀ c ∈ e.children, c.weight ≤ k :=
  fun _ mem => Nat.le_of_lt_succ ((weight_lt_of_child mem).trans_le low)

theorem weight_le_of_children {e' : Expr}
    (related : Forall₂ (fun c c' => c'.weight ≤ c.weight) e.children e'.children) :
    e'.weight ≤ e.weight := by
  rw [weight_eq_children, weight_eq_children e]
  refine Nat.add_le_add_left ?_ 1
  generalize e.children = before, e'.children = after at related
  induction related with
  | nil => exact Nat.le_refl _
  | cons le _ ih => exact Nat.add_le_add le ih

/-- A wildcard and what replaces it are both leaves. -/
theorem replacing_weight {values : List Value} :
    Replacing values fun e e' => e'.weight ≤ e.weight where
  kept _ _ := Nat.le_refl _
  renewed renewed := by
    refine weight_le_of_children (renewed.children.imp fun c c' place => ?_)
    rcases place with ⟨rfl, value, -, rfl⟩ | inside
    · exact Nat.le_refl 1
    · exact inside

/-- The pattern of an aggregate stands below it, plain or marked as one. -/
theorem pattern_below {inner : Expr} (isPattern : (aggregate op args).pattern? = some inner) :
    ∃ c ∈ (aggregate op args).children, inner.weight ≤ c.weight ∧ MarksWithin symbol? c inner := by
  unfold pattern? at isPattern
  split at isPattern
  case h_1 isAggregate =>
    cases isAggregate
    cases isPattern
    exact ⟨each inner, mem_cons_self, (weight_lt_of_child mem_cons_self).le,
      fun _ => mem_symbols_of_child mem_cons_self⟩
  case h_2 isAggregate =>
    cases isAggregate
    split at isPattern
    · cases isPattern
      exact ⟨inner, mem_cons_self, Nat.le_refl _, fun _ => id⟩
    · cases isPattern
  case h_3 => cases isPattern

end Expr

/-- Instances are no heavier than their tree. -/
theorem Wildcard.expand_weight {registry : Option Model} {ctx : Context} {instances : List Expr}
    (expanded : expand registry ctx e = .ok instances) : ∀ i ∈ instances, i.weight ≤ e.weight :=
  expand_replacing (fun _ => Nat.le_refl _) Expr.replacing_weight expanded

/-! ## Compilation -/

namespace Compilation

open Assembly

section Nodes

variable {cfg : Config} {compileTree compileTree' : Subtrees} {e t t' : Expr}
  {trees' : List Expr} {c c' : Context}

/-- Trees up to some weight are compiled by steps that look alike, also with leaves that stand for
each other and under contexts that agree on their bare names. -/
def AlikeWithin (exact : Bool) (limit : Nat) (compileTree compileTree' : Subtrees) : Prop :=
  ∀ (e : Expr) {c c' : Context} {leaf leaf' : Expr}, e.weight ≤ limit →
    Expr.Stands exact c' e leaf leaf' → Context.Agrees exact e.symbols c c' →
      Assembly.seen exact (compileTree (e.fill leaf) c)
        = Assembly.seen exact (compileTree' (e.fill leaf') c')

theorem AlikeWithin.mono {limit' : Nat} (alike : AlikeWithin exact limit compileTree compileTree')
    (le : limit' ≤ limit) : AlikeWithin exact limit' compileTree compileTree' :=
  fun e _ _ _ _ low => alike e (low.trans le)

theorem AlikeWithin.steps (alike : AlikeWithin exact limit compileTree compileTree')
    (low : e.weight ≤ limit) (agrees : Context.Agrees exact e.symbols c c') :
    Assembly.seen exact (compileTree e c) = Assembly.seen exact (compileTree' e c') := by
  simpa only [Expr.fill_wildcard] using alike e low .wildcard agrees

/-- Trees that an operator cannot tell from each other. -/
structure OperandAlike (exact : Bool) (compileTree compileTree' : Subtrees) (c c' : Context)
    (t t' : Expr) : Prop extends EvaluateAlike exact c c' t t' where
  constant : t.isConstant = t'.isConstant
  steps : Assembly.seen exact (compileTree t c) = Assembly.seen exact (compileTree' t' c')

theorem AlikeWithin.operand (alike : AlikeWithin exact limit compileTree compileTree')
    (low : e.weight ≤ limit) (agrees : Context.Agrees exact e.symbols c c') :
    OperandAlike exact compileTree compileTree' c c' e e :=
  ⟨e.evaluatesByNames c c' agrees, rfl, alike.steps low agrees⟩

theorem compileCondition_alike (same : OperandAlike exact compileTree compileTree' c c' t t') :
    Assembly.seen exact (compileCondition compileTree c t)
      = Assembly.seen exact (compileCondition compileTree' c' t') := by
  have judged : seen exact (constantCondition t c)
      = seen exact (constantCondition t' c') := by
    simp only [constantCondition, same.constant, apply_ite (seen exact),
      seen_bind, same.value]
  refine seen_lift_bind judged fun condition _ => ?_
  cases condition with
  | some => rfl
  | none => exact same.steps

theorem compileAggregate_alike (op : Aggregate)
    (related : Forall₂ (OperandAlike exact compileTree compileTree' c c') trees trees') :
    Assembly.seen exact (compileAggregate cfg compileTree op trees c)
      = Assembly.seen exact (compileAggregate cfg compileTree' op trees' c') := by
  have values : Assembly.seen exact (trees.mapM fun t => compileTree t c)
      = Assembly.seen exact (trees'.mapM fun t => compileTree' t c') := by
    rw [Assembly.seen_mapM, Assembly.seen_mapM]
    exact mapM_eq_of_forall₂ (related.imp fun _ _ same => same.steps)
  have conditions : Assembly.seen exact (trees.mapM (compileCondition compileTree c))
      = Assembly.seen exact (trees'.mapM (compileCondition compileTree' c')) := by
    rw [Assembly.seen_mapM, Assembly.seen_mapM]
    exact mapM_eq_of_forall₂ (related.imp fun _ _ => compileCondition_alike)
  cases op <;> simp only [compileAggregate, Assembly.seen_bind, values, conditions]

/-- What is done with the instances of a tree: they are no higher and bring no bare names in. -/
theorem expand_bind_alike {f g : List Expr → Assembly Polynomial}
    (agrees : Context.Agrees exact e.symbols c c')
    (rest : ∀ instances : List Expr, (∀ i ∈ instances, i.weight ≤ e.weight
      ∧ Context.Agrees exact i.symbols c c') →
        Assembly.seen exact (f instances) = Assembly.seen exact (g instances)) :
    Assembly.seen exact (do f (← Wildcard.expand (some (← model)) c e))
      = Assembly.seen exact (do g (← Wildcard.expand (some (← model)) c' e)) := by
  rw [Assembly.seen_bind, Assembly.seen_bind]
  refine bind_congr fun m => seen_lift_bind (Wildcard.expand_alike ⟨agrees, .some (.refl _ m)⟩)
    fun instances expanded => rest instances fun i mem => ?_
  have within := Wildcard.expand_replacing (fun _ _ => id) Expr.replacing_symbols expanded
  exact ⟨Wildcard.expand_weight expanded i mem, agrees.mono (within i mem)⟩

/-- A summand is compiled alike if all trees as high as it are: its instances are such trees. -/
theorem compileSummand_alike (alike : AlikeWithin exact e.weight compileTree compileTree')
    (agrees : Context.Agrees exact e.symbols c c') :
    Assembly.seen exact (compileSummand compileTree e c)
      = Assembly.seen exact (compileSummand compileTree' e c') := by
  have body : ∀ b : Expr, b.weight ≤ e.weight → Context.Agrees exact b.symbols c c' →
      Assembly.seen exact (if b.hasWildcard then do
          let instances ← Wildcard.expand (some (← model)) c b
          sumTrees compileTree instances c
        else compileTree b c)
      = Assembly.seen exact (if b.hasWildcard then do
          let instances ← Wildcard.expand (some (← model)) c' b
          sumTrees compileTree' instances c'
        else compileTree' b c') := by
    intro b low agree
    split
    · refine expand_bind_alike agree fun instances each => ?_
      simp only [sumTrees, Assembly.seen_foldlM, Assembly.seen_bind]
      refine foldlM_congr_of_mem (fun total i mem => ?_) _
      obtain ⟨low', agree'⟩ := each i mem
      rw [alike.steps (low'.trans low) agree']
    · exact alike.steps low agree
  unfold compileSummand
  cases e with
  | each pattern =>
    exact body pattern (Expr.weight_lt_of_child mem_cons_self).le
      (agrees.mono fun _ => Expr.mem_symbols_of_child mem_cons_self)
  | _ => exact body _ (Nat.le_refl _) agrees

/-- The operands of an aggregate are lower than it, also those that its pattern has as instances. -/
theorem operands_alike (alike : AlikeWithin exact limit compileTree compileTree')
    (low : (Expr.aggregate op args).weight ≤ limit + 1)
    (agrees : Context.Agrees exact (Expr.aggregate op args).symbols c c') :
    Assembly.seen exact (operands (.aggregate op args) args c >>= fun trees =>
        compileAggregate cfg compileTree op trees c)
      = Assembly.seen exact (operands (.aggregate op args) args c' >>= fun trees =>
        compileAggregate cfg compileTree' op trees c') := by
  have lower := Expr.weight_le_of_child low
  unfold operands
  split
  · exact compileAggregate_alike op (forall₂_same.mpr fun t mem =>
      alike.operand (lower t mem) (agrees.mono fun _ => Expr.mem_symbols_of_child mem))
  case h_2 inner isPattern =>
    obtain ⟨t, mem, le, within⟩ := Expr.pattern_below isPattern
    simp only [bind_assoc]
    refine expand_bind_alike
      (agrees.mono fun name known => Expr.mem_symbols_of_child mem (within name known))
      fun instances each => ?_
    split
    · rfl
    · exact compileAggregate_alike op (forall₂_same.mpr fun i known =>
        alike.operand (((each i known).1.trans le).trans (lower t mem)) (each i known).2)

theorem operands_several (several : ∀ arg, args ≠ [arg]) :
    operands (.aggregate op args) args c = pure args := by
  have noPattern : (Expr.aggregate op args).pattern? = none := by
    rcases args with _ | ⟨first, _ | ⟨second, rest⟩⟩
    · rfl
    · exact absurd rfl (several first)
    · cases first <;> rfl
  rw [operands, noPattern]

theorem joinPolynomials_alike (source : exact = true → t = t') (op : Arithmetic)
    (left right : Polynomial) : seen exact (joinPolynomials t op left right)
      = seen exact (joinPolynomials t' op left right) := by
  cases exact with
  | true => rw [source rfl]
  | false =>
    cases op with
    | div =>
      simp only [joinPolynomials]
      split <;> rfl
    | _ => rfl

/-- A node is compiled alike if all lower trees are. -/
theorem compileNode_alike (alike : AlikeWithin exact limit compileTree compileTree') :
    AlikeWithin exact (limit + 1) (compileNode cfg compileTree)
      (compileNode cfg compileTree') := by
  intro e c c' leaf leaf' low stands agrees
  have lower : ∀ t ∈ e.children, t.weight ≤ limit := Expr.weight_le_of_child low
  have below : ∀ t ∈ e.children,
      OperandAlike exact compileTree compileTree' c c' (t.fill leaf) (t.fill leaf') :=
    fun t mem =>
      have agree := agrees.mono fun _ => Expr.mem_symbols_of_child mem
      ⟨t.evaluate_fill (stands.child mem) agree, t.isConstant_fill stands.isConstant,
        alike t (lower t mem) (stands.child mem) agree⟩
  have root := e.evaluate_fill stands agrees
  have refused : ∀ cause : Expr → Cause,
      Assembly.seen exact (refuse (α := Polynomial) (cause (e.fill leaf)))
        = Assembly.seen exact (refuse (cause (e.fill leaf'))) := fun cause => by
    cases exact with
    | true => rw [stands.same rfl]
    | false => rfl
  unfold compileNode
  rw [← e.isConstant_fill stands.isConstant]
  split
  · simp only [Expr.foldConstant, seen_lift, seen_bind, root.value]
  case isFalse nonconstant =>
    cases e with
    | wildcard =>
      cases stands with
      | wildcard => rfl
      | named => exact absurd (by rw [Expr.fill, Expr.isConstant_eq]; rfl) nonconstant
    | literal | symbol | each => rfl
    | compare => exact refused .comparisonValue
    | range | lookup => exact refused .notFoldable
    | ref =>
      rw [Expr.fill_ref, Expr.fill_ref]
      dsimp only
      rw [Assembly.seen_bind, Assembly.seen_bind]
      refine bind_congr fun m => ?_
      rw [seen_lift, seen_lift, foldReference_fill stands agrees]
    | abs operand | negate operand | piecewise operand _ _ _ =>
      simp only [Expr.fill, Assembly.seen_bind, (below operand mem_cons_self).steps]
    | arith op left right =>
      have join := joinPolynomials_alike root.source op
      simp only [Expr.fill] at join ⊢
      simp only [Assembly.seen_bind, seen_lift, join,
        (below left mem_cons_self).steps, (below right (by simp [Expr.children])).steps]
    | ifThenElse cond yes no =>
      simp only [Expr.fill, Assembly.seen_bind, compileCondition_alike (below cond mem_cons_self),
        (below yes (by simp [Expr.children])).steps,
        (below no (by simp [Expr.children])).steps]
    | sum =>
      simp only [Expr.fill, Assembly.seen_foldlM, Assembly.seen_bind]
      refine foldlM_congr_of_mem (fun total arg mem => ?_) _
      rw [compileSummand_alike (alike.mono (lower arg mem))
        (agrees.mono fun _ => Expr.mem_symbols_of_child mem)]
    | sumOver body gens =>
      have listed := bindings_alike (fun item known t mem =>
        have inside : t ∈ (Expr.sumOver body gens).children :=
          mem_cons_of_mem _ (mem_flatMap.mpr ⟨item, known, mem⟩)
        ⟨t.evaluatesByNames, fun _ => Expr.mem_symbols_of_child inside⟩) agrees
      refine listed.foldListing (fun total inner inner' agree => ?_) _
      rw [Assembly.seen_bind, Assembly.seen_bind,
        compileSummand_alike (alike.mono (lower body mem_cons_self))
        (agree.mono fun _ => Expr.mem_symbols_of_child mem_cons_self)]
    | aggregate op args =>
      by_cases single : ∃ arg, args = [arg]
      · obtain ⟨arg, rfl⟩ := single
        exact operands_alike alike low agrees
      · have several := not_exists.mp single
        rw [Expr.fill_aggregate op several, Expr.fill_aggregate op several]
        dsimp only
        rw [operands_several (by simpa using several), operands_several (by simpa using several),
          pure_bind, pure_bind]
        refine compileAggregate_alike op ?_
        rw [forall₂_map_left_iff, forall₂_map_right_iff, forall₂_same]
        exact below

end Nodes

variable {cfg : Config} {e : Expr} {ctx : Context}

/-- Any two weights that suffice for a tree give the same steps. -/
theorem compileWithin_alike {k' : Nat} (le : limit ≤ k) (le' : limit ≤ k') :
    AlikeWithin exact limit (compileWithin cfg k) (compileWithin cfg k') := by
  induction limit generalizing k k' with
  | zero => exact fun e _ _ _ _ low => absurd (e.weight_pos.trans_le low) (Nat.lt_irrefl 0)
  | succ _ ih =>
    obtain ⟨k, rfl⟩ := Nat.exists_eq_add_of_le' le
    obtain ⟨k', rfl⟩ := Nat.exists_eq_add_of_le' le'
    exact compileNode_alike (ih (Nat.le_add_left _ _) (Nat.le_add_left _ _))

/-- A tree is compiled as its root says, with its subtrees compiled for themselves. -/
theorem compile_eq (cfg : Config) (e : Expr) (ctx : Context) :
    compile cfg e ctx = compileNode cfg (compile cfg) e ctx := by
  obtain ⟨limit, isWeight⟩ := Nat.exists_eq_add_one.mpr e.weight_pos
  have alike : AlikeWithin true limit (compileWithin cfg limit) (compile cfg) := by
    intro t c c' leaf leaf' low stands agrees
    cases stands with
    | wildcard =>
      rw [Expr.fill_wildcard]
      exact (compileWithin_alike low (Nat.le_refl _)).steps (Nat.le_refl _) agrees
    | named unseen => cases unseen
  rw [compile, isWeight, compileWithin]
  simpa only [Assembly.seen_true] using
    (compileNode_alike alike).steps isWeight.le (.refl ctx)

/-- Trees with a value, and with a name for it, are compiled by steps that look alike. -/
theorem compile_alike (cfg : Config) (limit : Nat) :
    AlikeWithin exact limit (compile cfg) (compile cfg) := by
  induction limit with
  | zero => exact fun e _ _ _ _ low => absurd (e.weight_pos.trans_le low) (Nat.lt_irrefl 0)
  | succ _ ih =>
    intro e c c' leaf leaf' low stands agrees
    rw [compile_eq, compile_eq cfg (e.fill leaf')]
    exact compileNode_alike ih e low stands agrees

theorem compile_of_isConstant (constant : e.isConstant = true) :
    compile cfg e ctx = liftM (e.foldConstant ctx) := by
  rw [compile_eq]
  unfold compileNode
  rw [if_pos constant]

end Compilation

end LinearProgram
