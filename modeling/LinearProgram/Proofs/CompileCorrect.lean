import LinearProgram.Proofs.Meaning

/-!
# Compilation is exact

A tree over exact data that refers to no auxiliary family compiles to a polynomial that captures its
meaning (`compile_realizes`). Each node puts the relations of its subtrees together with that of its
operator (`compileNode_yields`).
-/

namespace LinearProgram

open List

variable {k : Int} {trees args : List Expr}

/-- A tree that refers to no auxiliary family. -/
def Expr.Avoids (cfg : Config) (e : Expr) : Prop :=
  ∀ family ∈ e.families, ¬ cfg.IsAuxiliary family

namespace Compilation

open Assembly Linearization

/-- How a tree must be for its compilation to be exact. -/
structure Admissible (cfg : Config) (plain : Prop) (e : Expr) : Prop where
  exact : e.Exact plain
  avoids : e.Avoids cfg

variable {cfg : Config} {plain : Prop}

theorem Admissible.of_instance {e e' : Expr} (admissible : Admissible cfg plain e)
    (origin : e.Instance e') : Admissible cfg plain e' :=
  ⟨origin.exact plain admissible.exact,
    fun family mem => admissible.avoids family (origin.families family mem)⟩

theorem Admissible.child {e c : Expr} (admissible : Admissible cfg plain e)
    (mem : c ∈ e.children) (exact : c.Exact plain) : Admissible cfg plain c :=
  ⟨exact, fun family inside => admissible.avoids family (Expr.mem_families_of_child mem inside)⟩

/-- A way to compile trees that captures the meaning of admissible ones, wherever the model has only
grown by auxiliary variables. -/
def Captures (cfg : Config) (plain : Prop) (compileTree : Subtrees) : Prop :=
  ∀ {e : Expr} {ctx : Context} (m : Model), ctx.Exact → Admissible cfg plain e →
    Yields cfg plain m (compileTree e ctx) fun a v => Means m a ctx e v

/-! ## Constants and references -/

theorem ofValue_exact {value : Value} {p : Polynomial} (exact : value.Exact)
    (converted : Polynomial.ofValue value = .ok p) :
    ∃ n : Int, p = Polynomial.const (.int n) ∧ value.rational? = some (n : ℚ) := by
  cases value with
  | number x | cell x =>
    cases x with
    | bool => exact absurd converted (raise_ne_ok _ _)
    | int n =>
      cases converted
      exact ⟨n, rfl, rfl⟩
    | float => exact absurd exact id
  | _ => exact absurd converted (raise_ne_ok _ _)

section Nodes

variable {m m₁ : Model} {ctx : Context} {e operand : Expr}

/-- A number is a polynomial that means it. -/
theorem realizes_number {value : Value} {n : Int} (closed : e.isConstant = true)
    (evaluated : e.evaluate ctx = .ok value) (number : value.rational? = some (n : ℚ)) :
    (Polynomial.const (.int n)).Formed m₁
      ∧ Realizes cfg plain m₁ m₁ (Polynomial.const (.int n)).valueAt
          fun a v => Means m a ctx e v := by
  refine realizes_polynomial (Polynomial.formed_const _ n) fun a v _ => ?_
  rw [means_constant_iff closed, Polynomial.valueAt_const, Number.toRat_int]
  constructor
  · rintro ⟨value', evaluated', number'⟩
    obtain rfl := Except.ok.inj (evaluated.symm.trans evaluated')
    exact Option.some.inj (number'.symm.trans number)
  · rintro rfl
    exact ⟨value, evaluated, number⟩

theorem constant_yields (isExact : ctx.Exact) (exact : e.Exact plain)
    (closed : e.isConstant = true) :
    Yields cfg plain m (liftM (e.foldConstant ctx)) fun a v => Means m a ctx e v := by
  intro s p s' _ _ ran
  obtain ⟨folded, rfl⟩ := run_lift_ok.mp ran
  obtain ⟨value, evaluated, converted⟩ := bind_eq_ok.mp folded
  obtain ⟨n, rfl, number⟩ :=
    ofValue_exact ((e.evaluate_exact isExact exact).of_ok evaluated) converted
  exact realizes_number closed evaluated number

theorem reference_yields {name : Value} {indices : List Expr}
    (avoids : (Expr.ref name indices).Avoids cfg) {s s' : Store} {p : Polynomial}
    (ext : Extension cfg m s.model)
    (folded : foldReference (some s.model) name indices ctx = .ok p) (same : s = s') :
    p.Formed s'.model ∧ Realizes cfg plain s.model s'.model p.valueAt
      fun a v => Means m a ctx (.ref name indices) v := by
  subst same
  obtain ⟨key, given, done⟩ := bind_eq_ok.mp folded
  cases done
  have declared := (resolveReference_ok given).2
  rw [resolveReference_alike (ext.alikeOn avoids)] at given
  refine realizes_polynomial (Polynomial.formed_ofKey declared) fun a v _ => ?_
  rw [means_ref_iff, NodeMeans, Polynomial.valueAt_ofKey]
  constructor
  · rintro ⟨key', given', rfl⟩
    rw [Except.ok.inj (given.symm.trans given')]
  · rintro rfl
    exact ⟨key, given, rfl⟩

/-! ## Conditions, summands and operands -/

theorem meansEach_map_iff {a : Assignment} {values : List ℚ} :
    MeansEach m a (trees.map (ctx, ·)) values
      ↔ Forall₂ (fun t v => Means m a ctx t v) trees values := by
  rw [meansEach_iff, forall₂_map_left_iff]

/-- What a summand means, once the trees are known that it stands for. -/
theorem meansSummand_iff {a : Assignment} {v : ℚ} (listed : e.summands m ctx = .ok trees) :
    MeansSummand m a ctx e v
      ↔ ∃ values, Forall₂ (fun t v => Means m a ctx t v) trees values
        ∧ v = values.sum := by
  constructor
  · rintro ⟨trees', values, listed', means, rfl⟩
    obtain rfl := Except.ok.inj (listed.symm.trans listed')
    exact ⟨values, meansEach_map_iff.mp means, rfl⟩
  · rintro ⟨values, means, rfl⟩
    exact ⟨trees, values, listed, meansEach_map_iff.mpr means, rfl⟩

/-- The operands of an aggregate are those that it means to join. -/
theorem operands_ok {op : Aggregate} {s s' : Store}
    (avoids : (Expr.aggregate op args).Avoids cfg) (ext : Extension cfg m s.model)
    (ran : (operands (.aggregate op args) args ctx).run s = (.ok trees, s')) :
    s = s' ∧ operandTrees m ctx op args = .ok trees := by
  rw [operands] at ran
  rw [operandTrees]
  cases found : (Expr.aggregate op args).pattern? with
  | none =>
    rw [found] at ran
    obtain ⟨rfl, rfl⟩ := run_pure_ok ran
    exact ⟨rfl, rfl⟩
  | some pattern =>
    rw [found] at ran
    obtain ⟨_, s₁, read, ran⟩ := run_bind_ok.mp ran
    cases read
    obtain ⟨instances, expanded, ran⟩ := run_lift_bind_ok.mp ran
    obtain ⟨arg, argument, origin⟩ := pattern?_instance found
    have plainPattern : pattern.Avoids cfg := fun family mem => avoids family
      (Expr.mem_families_of_child argument (origin.families family mem))
    rw [Wildcard.expand_eq_of_alike (ext.alikeOn plainPattern)] at expanded
    split at ran
    · exact absurd ran run_refuse_ne_ok
    · obtain ⟨rfl, rfl⟩ := run_pure_ok ran
      exact ⟨rfl, expanded⟩

theorem joinPolynomials_ok {source : Expr} {op : Arithmetic} {l r p : Polynomial}
    (noQuotient : op ≠ .div) (left : l.Formed m₁) (right : r.Formed m₁)
    (joined : joinPolynomials source op l r = .ok p) :
    p.Formed m₁ ∧ ∀ a : Assignment, p.valueAt a = op.apply (l.valueAt a) (r.valueAt a) := by
  cases op with
  | add => exact Polynomial.add_ok left right joined
  | sub => exact Polynomial.sub_ok left right joined
  | mul => exact Polynomial.mul_ok left right joined
  | div => exact absurd rfl noQuotient

theorem foldListing_ok {α σ : Type} {listing : Listing α} {f : σ → α → Assembly σ} {start r : σ}
    {s s' : Store} (ran : (foldListing listing f start).run s = (.ok r, s')) :
    listing.stop = none ∧ (listing.items.foldlM f start).run s = (.ok r, s') := by
  obtain ⟨result, s₁, folded, ran⟩ := run_bind_ok.mp ran
  split at ran
  · cases ran
  case h_2 complete =>
    obtain ⟨rfl, rfl⟩ := run_pure_ok ran
    exact ⟨complete, folded⟩

/-- Operands compiled one after the other and then joined. -/
theorem joined_realizes {op : Aggregate} {f : Expr → Assembly Polynomial}
    {join : List Polynomial → Assembly Polynomial}
    (each : ∀ t ∈ trees, Yields cfg plain m (f t) fun a v => Means m a ctx t v)
    (joins : ∀ {ps : List Polynomial} {p : Polynomial} {s s' : Store}, s.model.ExactBounds →
      (∀ q ∈ ps, q.Formed s.model) → (join ps).run s = (.ok p, s') →
      p.Formed s'.model ∧ Realizes cfg plain s.model s'.model p.valueAt fun a v =>
        op.Joins (ps.map (·.valueAt a)) v) {s s' : Store} {p : Polynomial}
    (exact : s.model.ExactBounds) (ext : Extension cfg m s.model)
    (ran : (do join (← trees.mapM f)).run s = (.ok p, s')) :
    p.Formed s'.model ∧ Realizes cfg plain s.model s'.model p.valueAt fun a v =>
      ∃ values, Forall₂ (fun t v => Means m a ctx t v) trees values
        ∧ op.Joins values v := by
  obtain ⟨ps, s₁, compiled, ran⟩ := run_bind_ok.mp ran
  obtain ⟨formedPs, first⟩ := Yields.mapM (D := fun t a v => Means m a ctx t v) each
    (fun t _ => means_local cfg m ctx t) exact ext compiled
  obtain ⟨formed, second⟩ := joins (first.extension.exact exact) formedPs ran
  exact ⟨formed, first.andThen op.Joins second⟩

section Captured

variable {compileTree : Subtrees} (captures : Captures cfg plain compileTree)
  (isExact : ctx.Exact)

include captures isExact

theorem compileCondition_yields (admissible : Admissible cfg plain e) :
    Yields cfg plain m (compileCondition compileTree ctx e)
      fun a v => Means m a ctx e v := by
  intro s p s' exact ext ran
  obtain ⟨found, tested, ran⟩ := run_lift_bind_ok.mp ran
  cases found with
  | none => exact captures m isExact admissible s p s' exact ext ran
  | some =>
    obtain ⟨rfl, rfl⟩ := run_pure_ok ran
    unfold constantCondition at tested
    split at tested
    case isTrue closed =>
      obtain ⟨value, evaluated, tested⟩ := bind_eq_ok.mp tested
      split at tested
      case h_1 b =>
        cases tested
        refine realizes_number closed evaluated ?_
        cases b <;> rfl
      case h_2 => cases tested
    case isFalse => cases tested

/-- The sum of trees that are compiled one after the other. -/
theorem sumTrees_realizes (admissible : ∀ t ∈ trees, Admissible cfg plain t) {s s' : Store}
    {p : Polynomial} (exact : s.model.ExactBounds) (ext : Extension cfg m s.model)
    (ran : (sumTrees compileTree trees ctx).run s = (.ok p, s')) :
    p.Formed s'.model ∧ Realizes cfg plain s.model s'.model p.valueAt fun a v =>
      ∃ values, Forall₂ (fun t v => Means m a ctx t v) trees values ∧ v = values.sum := by
  obtain ⟨formed, realizes⟩ := Yields.foldlM_add (f := fun t => compileTree t ctx)
    (D := fun t a v => Means m a ctx t v)
    (fun t mem => captures m isExact (admissible t mem))
    (fun t _ => means_local cfg m ctx t) exact ext (Polynomial.formed_const _ 0) ran
  refine ⟨formed, realizes.congr fun a _ v => ?_⟩
  simp

/-- A summand contributes what its instances mean. -/
theorem compileSummand_yields (admissible : Admissible cfg plain e) :
    Yields cfg plain m (compileSummand compileTree e ctx)
      fun a v => MeansSummand m a ctx e v := by
  intro s p s' exact ext ran
  have of_body : ∀ {body : Expr}, e.Instance body →
      e.summands m ctx = (if body.hasWildcard then Wildcard.expand (some m) ctx body
        else .ok [body]) →
      (do
        if body.hasWildcard then
          let instances ← Wildcard.expand (some (← model)) ctx body
          sumTrees compileTree instances ctx
        else compileTree body ctx : Assembly Polynomial).run s = (.ok p, s') →
      p.Formed s'.model ∧ Realizes cfg plain s.model s'.model p.valueAt
        fun a v => MeansSummand m a ctx e v := by
    intro body origin listed ran
    have isAdmissible := admissible.of_instance origin
    split at ran
    case isTrue wild =>
      obtain ⟨_, s₁, read, ran⟩ := run_bind_ok.mp ran
      cases read
      obtain ⟨instances, expanded, ran⟩ := run_lift_bind_ok.mp ran
      -- the instances found now are those of the model at the start
      rw [Wildcard.expand_eq_of_alike (ext.alikeOn isAdmissible.avoids)] at expanded
      rw [if_pos wild, expanded] at listed
      obtain ⟨formed, realizes⟩ := sumTrees_realizes captures isExact (fun t mem =>
        isAdmissible.of_instance (Wildcard.expand_instances expanded t mem)) exact ext
        ran
      exact ⟨formed, realizes.congr fun a _ v => meansSummand_iff listed⟩
    case isFalse tame =>
      rw [if_neg tame] at listed
      obtain ⟨formed, realizes⟩ := captures m isExact isAdmissible s p s' exact ext ran
      refine ⟨formed, realizes.congr fun a _ v => ?_⟩
      rw [meansSummand_iff listed]
      constructor
      · rintro ⟨values, means, rfl⟩
        obtain ⟨w, here, rfl⟩ := forall₂_singleton_left_iff.mp means
        simpa using here
      · exact fun means => ⟨[v], .cons means .nil, by simp⟩
  cases e with
  | each pattern => exact of_body (Expr.instance_each pattern) rfl ran
  | _ => exact of_body (.refl _) rfl ran

/-! ## Operators -/

theorem arith_yields {op : Arithmetic} {left right : Expr}
    (admissible : Admissible cfg plain (.arith op left right))
    (isOpen : (Expr.arith op left right).isConstant = false) :
    Yields cfg plain m (do
      let l ← compileTree left ctx
      let r ← compileTree right ctx
      joinPolynomials (.arith op left right) op l r)
      fun a v => Means m a ctx (.arith op left right) v := by
  intro s p s' exact ext ran
  obtain ⟨noQuotient, exactLeft, exactRight⟩ := admissible.exact
  have onLeft := admissible.child mem_cons_self exactLeft
  have onRight := admissible.child (by simp [Expr.children]) exactRight
  obtain ⟨l, s₁, ranLeft, ran⟩ := run_bind_ok.mp ran
  obtain ⟨r, s₂, ranRight, ran⟩ := run_bind_ok.mp ran
  obtain ⟨joined, rfl⟩ := run_lift_ok.mp ran
  obtain ⟨formedL, first⟩ := captures m isExact onLeft s l s₁ exact ext ranLeft
  obtain ⟨formedR, second⟩ := captures m isExact onRight s₁ r s₂ (first.extension.exact exact)
    (ext.trans first.extension) ranRight
  obtain ⟨formed, values⟩ :=
    joinPolynomials_ok noQuotient (second.extension.formed formedL) formedR joined
  refine ⟨formed, (first.bind (fun _ a w => Means m a ctx right w) second
    fun _ => (means_local cfg m ctx right).of_extension ext).map
    (fun v => op.apply v.1 v.2) values fun a _ w => ?_⟩
  rw [means_open_iff isOpen, NodeMeans]
  constructor
  · rintro ⟨x, y, left, right, rfl⟩
    exact ⟨(x, y), ⟨left, right⟩, rfl⟩
  · rintro ⟨⟨x, y⟩, ⟨left, right⟩, rfl⟩
    exact ⟨x, y, left, right, rfl⟩

theorem negate_yields (admissible : Admissible cfg plain (.negate operand))
    (isOpen : (Expr.negate operand).isConstant = false) :
    Yields cfg plain m (do (← compileTree operand ctx).neg)
      fun a v => Means m a ctx (.negate operand) v := by
  intro s p s' exact ext ran
  have onOperand := admissible.child mem_cons_self admissible.exact
  obtain ⟨q, s₁, compiled, ran⟩ := run_bind_ok.mp ran
  obtain ⟨negated, rfl⟩ := run_lift_ok.mp ran
  obtain ⟨formedQ, first⟩ := captures m isExact onOperand s q s₁ exact ext compiled
  obtain ⟨formed, values⟩ := Polynomial.neg_ok formedQ negated
  refine ⟨formed, first.map (fun v => -v) values fun a _ w => ?_⟩
  simp only [means_open_iff isOpen, NodeMeans, eq_comm]

omit isExact in
/-- A running total of summands, each in its own context. -/
theorem summands_realize (pairs : List (Context × Expr))
    (each : ∀ pair ∈ pairs, pair.1.Exact ∧ Admissible cfg plain pair.2) {s s' : Store}
    {p : Polynomial} (exact : s.model.ExactBounds) (ext : Extension cfg m s.model)
    (ran : (pairs.foldlM (fun (total : Polynomial) (pair : Context × Expr) => do
      total.add (← compileSummand compileTree pair.2 pair.1)) (Polynomial.const (.int 0))).run s
        = (.ok p, s')) :
    p.Formed s'.model ∧ Realizes cfg plain s.model s'.model p.valueAt fun a v =>
      ∃ terms values, sumTerms m pairs = .ok terms ∧ MeansEach m a terms values
        ∧ v = values.sum := by
  obtain ⟨formed, realizes⟩ := Yields.foldlM_add
    (f := fun pair : Context × Expr => compileSummand compileTree pair.2 pair.1)
    (D := fun pair a v => MeansSummand m a pair.1 pair.2 v)
    (fun pair mem => compileSummand_yields captures (each pair mem).1 (each pair mem).2)
    (fun pair _ => meansSummand_local cfg m pair.1 pair.2) exact ext
    (Polynomial.formed_const _ 0) ran
  refine ⟨formed, realizes.congr fun a _ v => ?_⟩
  rw [sumTerms_iff]
  simp

theorem sum_yields (admissible : Admissible cfg plain (.sum args))
    (isOpen : (Expr.sum args).isConstant = false) :
    Yields cfg plain m (args.foldlM (fun (total : Polynomial) arg => do
        total.add (← compileSummand compileTree arg ctx)) (Polynomial.const (.int 0)))
      fun a v => Means m a ctx (.sum args) v := by
  intro s p s' exact ext ran
  have each : ∀ pair ∈ args.map (ctx, ·), pair.1.Exact ∧ Admissible cfg plain pair.2 := by
    intro pair mem
    obtain ⟨arg, argument, rfl⟩ := mem_map.mp mem
    exact ⟨isExact, admissible.child argument (exactTrees_iff.mp admissible.exact arg argument)⟩
  obtain ⟨formed, realizes⟩ := summands_realize captures _ each exact ext
    (by rw [foldlM_map]; exact ran)
  exact ⟨formed, realizes.congr fun a _ v => means_open_iff isOpen⟩

theorem sumOver_yields {body : Expr} {gens : List GeneratorItem}
    (admissible : Admissible cfg plain (.sumOver body gens))
    (isOpen : (Expr.sumOver body gens).isConstant = false) :
    Yields cfg plain m (foldListing (bindings gens ctx)
        (fun (total : Polynomial) inner => do
          total.add (← compileSummand compileTree body inner)) (Polynomial.const (.int 0)))
      fun a v => Means m a ctx (.sumOver body gens) v := by
  intro s p s' exact ext ran
  obtain ⟨exactBody, exactDomains⟩ := admissible.exact
  obtain ⟨complete, ran⟩ := foldListing_ok ran
  have onBody := admissible.child mem_cons_self exactBody
  have each : ∀ pair ∈ (bindings gens ctx).items.map (·, body),
      pair.1.Exact ∧ Admissible cfg plain pair.2 := by
    intro pair mem
    obtain ⟨inner, bound, rfl⟩ := mem_map.mp mem
    exact ⟨bindings_exact isExact exactDomains bound, onBody⟩
  obtain ⟨formed, realizes⟩ := summands_realize captures _ each exact ext
    (by rw [foldlM_map]; exact ran)
  refine ⟨formed, realizes.congr fun a _ v => ?_⟩
  rw [means_open_iff isOpen, NodeMeans]
  constructor
  · rintro ⟨contexts, terms, values, bound, listed, means, rfl⟩
    rw [bound]
    exact ⟨terms, values, listed, means, rfl⟩
  · rintro ⟨terms, values, listed, means, rfl⟩
    refine ⟨_, terms, values, ?_, listed, means, rfl⟩
    rw [← complete]

theorem aggregate_yields (slack : cfg.bigMSlack = .int k) (one : 1 ≤ k) {op : Aggregate}
    {args : List Expr} (admissible : Admissible cfg plain (.aggregate op args))
    (isOpen : (Expr.aggregate op args).isConstant = false) :
    Yields cfg plain m (do
      compileAggregate cfg compileTree op (← operands (.aggregate op args) args ctx) ctx)
      fun a v => Means m a ctx (.aggregate op args) v := by
  intro s p s' exact ext ran
  obtain ⟨trees, s₁, found, ran⟩ := run_bind_ok.mp ran
  obtain ⟨rfl, listed⟩ := operands_ok admissible.avoids ext found
  have onTrees : ∀ t ∈ trees, Admissible cfg plain t := by
    intro t mem
    obtain ⟨arg, argument, origin⟩ := operandTrees_instances listed t mem
    exact (admissible.child argument
      (exactTrees_iff.mp admissible.exact arg argument)).of_instance origin
  have numbers : ∀ t ∈ trees, Yields cfg plain m (compileTree t ctx)
      fun a v => Means m a ctx t v := fun t mem => captures m isExact (onTrees t mem)
  have conditions : ∀ t ∈ trees, Yields cfg plain m (compileCondition compileTree ctx t)
      fun a v => Means m a ctx t v := fun t mem =>
    compileCondition_yields captures isExact (onTrees t mem)
  -- what the four operators have in common: operands with meanings, then joined
  suffices joined : p.Formed s'.model ∧ Realizes cfg plain s.model s'.model p.valueAt fun a v =>
      ∃ values, Forall₂ (fun t v => Means m a ctx t v) trees values
        ∧ op.Joins values v by
    refine ⟨joined.1, joined.2.congr fun a _ v => ?_⟩
    rw [means_open_iff isOpen, NodeMeans]
    constructor
    · rintro ⟨trees', values, listed', means, joins⟩
      obtain rfl := Except.ok.inj (listed.symm.trans listed')
      exact ⟨values, meansEach_map_iff.mp means, joins⟩
    · rintro ⟨values, means, joins⟩
      exact ⟨trees, values, listed, meansEach_map_iff.mpr means, joins⟩
  cases op with
  | max =>
    exact joined_realizes numbers (fun exact formed ran => realizes_of_extremal
      Aggregate.max_greatestBy (maximum_extremal slack one (fun e _ => exact.over e) formed ran))
      exact ext ran
  | min =>
    exact joined_realizes numbers (fun exact formed ran => realizes_of_extremal
      Aggregate.min_greatestBy (minimum_extremal slack one (fun e _ => exact.over e) formed ran))
      exact ext ran
  | and =>
    exact joined_realizes conditions (fun exact formed ran =>
      (conjunction_connected formed ran).realizes (.inl rfl) exact formed) exact ext ran
  | or =>
    exact joined_realizes conditions (fun exact formed ran =>
      (disjunction_connected formed ran).realizes (.inr rfl) exact formed) exact ext ran

theorem ifThenElse_yields (slack : cfg.bigMSlack = .int k) (one : 1 ≤ k)
    {cond yes no : Expr}
    (admissible : Admissible cfg plain (.ifThenElse cond yes no))
    (isOpen : (Expr.ifThenElse cond yes no).isConstant = false) :
    Yields cfg plain m (do
      let c ← compileCondition compileTree ctx cond
      let whenTrue ← compileTree yes ctx
      let whenFalse ← compileTree no ctx
      choice cfg c whenTrue whenFalse)
      fun a v => Means m a ctx (.ifThenElse cond yes no) v := by
  intro s p s' exact ext ran
  obtain ⟨exactCond, exactThen, exactElse⟩ := admissible.exact
  have onCond := admissible.child mem_cons_self exactCond
  have onThen := admissible.child (by simp [Expr.children]) exactThen
  have onElse := admissible.child (by simp [Expr.children]) exactElse
  obtain ⟨c, s₁, ranCond, ran⟩ := run_bind_ok.mp ran
  obtain ⟨x, s₂, ranThen, ran⟩ := run_bind_ok.mp ran
  obtain ⟨y, s₃, ranElse, ran⟩ := run_bind_ok.mp ran
  obtain ⟨formedC, first⟩ :=
    compileCondition_yields captures isExact onCond s c s₁ exact ext ranCond
  obtain ⟨formedX, second⟩ := captures m isExact onThen s₁ x s₂ (first.extension.exact exact)
    (ext.trans first.extension) ranThen
  have toSecond := first.extension.trans second.extension
  obtain ⟨formedY, third⟩ := captures m isExact onElse s₂ y s₃ (toSecond.exact exact)
    (ext.trans toSecond) ranElse
  have fromFirst := second.extension.trans third.extension
  obtain ⟨formed, fourth⟩ := choice_realizes slack one
    ((toSecond.trans third.extension).exact exact)
    (fromFirst.formed formedC) (third.extension.formed formedX) formedY ran
  -- the condition and both branches are read off one assignment, then the choice between them
  have values := (first.bind (fun _ a v => Means m a ctx yes v) second
    fun _ => (means_local cfg m ctx yes).of_extension ext).bind
    (fun _ a v => Means m a ctx no v) third
    fun _ => (means_local cfg m ctx no).of_extension ext
  have chosen := values.andThen (fun u v => Chooses u.1.1 u.1.2 u.2 v) fourth
  refine ⟨formed, chosen.congr fun a _ v => ?_⟩
  rw [means_open_iff isOpen, NodeMeans]
  constructor
  · rintro ⟨c, x, y, meansC, meansX, meansY, chooses⟩
    exact ⟨((c, x), y), ⟨⟨meansC, meansX⟩, meansY⟩, chooses⟩
  · rintro ⟨⟨⟨c, x⟩, y⟩, ⟨⟨meansC, meansX⟩, meansY⟩, chooses⟩
    exact ⟨c, x, y, meansC, meansX, meansY, chooses⟩

theorem piecewise_yields {breakpoints slopes offsets : List Value}
    (admissible : Admissible cfg plain (.piecewise operand breakpoints slopes offsets))
    (isOpen : (Expr.piecewise operand breakpoints slopes offsets).isConstant = false) :
    Yields cfg plain m (do
      let p ← compileTree operand ctx
      piecewise cfg p breakpoints slopes offsets)
      fun a v => Means m a ctx (.piecewise operand breakpoints slopes offsets) v := by
  intro s p s' exact ext ran
  obtain ⟨exactOperand, isPlain, wholePoints, wholeSlopes, wholeIntercepts⟩ := admissible.exact
  have onOperand := admissible.child mem_cons_self exactOperand
  obtain ⟨e, s₁, compiled, ran⟩ := run_bind_ok.mp ran
  obtain ⟨formedE, first⟩ := captures m isExact onOperand s e s₁ exact ext compiled
  obtain ⟨formed, added⟩ := piecewise_adds wholePoints wholeSlopes wholeIntercepts formedE ran
  -- a piecewise linear function of variables need not have a value everywhere
  have notPlain : ¬ plain := fun holds =>
    absurd ((Expr.isConstant_piecewise (isPlain holds)).symm.trans isOpen) (by decide)
  have second : Realizes cfg plain s₁.model s'.model p.valueAt fun a v =>
      ∃ g ∈ Segment.ofData breakpoints slopes offsets, g.Gives (e.valueAt a) v :=
    (Realizes.of_adds added).of_blocks fun holds => absurd holds notPlain
  have both := first.andThen
    (fun x v => ∃ g ∈ Segment.ofData breakpoints slopes offsets, g.Gives x v) second
  exact ⟨formed, both.congr fun a _ v => means_open_iff isOpen⟩

/-! ## Trees -/

/-- One node, given that its subtrees are compiled exactly. -/
theorem compileNode_yields (slack : cfg.bigMSlack = .int k) (one : 1 ≤ k)
    (admissible : Admissible cfg plain e) :
    Yields cfg plain m (compileNode cfg compileTree e ctx)
      fun a v => Means m a ctx e v := by
  unfold compileNode
  split
  case isTrue closed => exact constant_yields isExact admissible.exact closed
  case isFalse notClosed =>
    have isOpen : e.isConstant = false := Bool.eq_false_iff.mpr notClosed
    -- nodes that are refused have nothing to show
    have refused : ∀ {cause : Cause}, Yields cfg plain m (refuse cause)
        fun a v => Means m a ctx e v :=
      fun _ _ _ _ _ ran => absurd ran run_refuse_ne_ok
    cases e with
    | wildcard | literal value | symbol name | lookup container key dot | range start stop
    | each pattern | compare op left right => exact refused
    | ref =>
      intro s p s' exact ext ran
      obtain ⟨_, s₁, read, ran⟩ := run_bind_ok.mp ran
      cases read
      obtain ⟨folded, same⟩ := run_lift_ok.mp ran
      exact reference_yields admissible.avoids ext folded same
    | arith => exact arith_yields captures isExact admissible isOpen
    | negate => exact negate_yields captures isExact admissible isOpen
    | sum => exact sum_yields captures isExact admissible isOpen
    | sumOver => exact sumOver_yields captures isExact admissible isOpen
    | abs operand =>
      have closed : (Expr.abs operand).isConstant = true := by
        rw [Expr.isConstant_eq]
        simp [Expr.isOpen, Expr.children, admissible.exact.1]
      exact absurd closed notClosed
    | aggregate => exact aggregate_yields captures isExact slack one admissible isOpen
    | ifThenElse =>
      exact ifThenElse_yields captures isExact slack one admissible isOpen
    | piecewise =>
      exact piecewise_yields captures isExact admissible isOpen

end Captured

/-- The whole of a tree, by induction on the weight that is allowed for it. -/
theorem compileWithin_captures (slack : cfg.bigMSlack = .int k) (one : 1 ≤ k) (limit : Nat) :
    Captures cfg plain (compileWithin cfg limit) := by
  induction limit with
  | zero => exact fun _ _ _ _ _ _ _ _ ran => absurd ran run_refuse_ne_ok
  | succ _ ih =>
    exact fun m isExact admissible => compileNode_yields ih isExact slack one admissible

end Nodes

/-- The inputs on which compilation is exact: an integer slack, integer bounds, exact data, and a
tree that refers to no auxiliary family. -/
structure ExactInput (cfg : Config) (plain : Prop) (m : Model) (ctx : Context) (e : Expr) :
    Prop where
  slack : ∃ k : Int, cfg.bigMSlack = .int k ∧ 1 ≤ k
  bounds : m.ExactBounds
  names : ctx.Exact
  tree : e.Exact plain
  avoids : e.Avoids cfg

section Tree

variable {s s' : Store} {ctx : Context} {e : Expr} {p : Polynomial}

/-- A compiled tree captures its meaning. -/
theorem compile_realizes (input : ExactInput cfg plain s.model ctx e)
    (ran : (compile cfg e ctx).run s = (.ok p, s')) :
    p.Formed s'.model ∧ Realizes cfg plain s.model s'.model p.valueAt
      fun a v => Means s.model a ctx e v := by
  obtain ⟨k, slack, one⟩ := input.slack
  exact compileWithin_captures slack one e.weight s.model input.names ⟨input.tree, input.avoids⟩
    s p s' input.bounds (Extension.refl cfg s.model) ran

def wholeSlack : Config := { bigMSlack := .int 1 }

/-- A model with one variable between 0 and 3. -/
def gauge : Store :=
  { model := {
      columns := [⟨⟨"level", []⟩, .continuous, some (.int 0), some (.int 3), "level", .none, false⟩]
      families := [("level", [[]])] } }

/-- The greater of the variable and 1. -/
def highWater : Expr := .aggregate .max [.ref (.str "level") [], .literal (.int 1)]

def zeros : Assignment := ⟨fun _ => 0, fun _ => rfl⟩

theorem level_plain : ¬ wholeSlack.IsAuxiliary "level" := by
  rintro ⟨rest, starts⟩
  have word : wholeSlack.auxiliaryWord.text = "aux" := rfl
  have heads := congrArg (fun t : String => t.toList.head?) starts
  rw [word] at heads
  simp at heads

theorem highWater_input (plain : Prop) : ExactInput wholeSlack plain gauge.model {} highWater where
  slack := ⟨1, rfl, le_refl 1⟩
  bounds v mem := by
    rw [mem_singleton.mp mem]
    exact ⟨.inl ⟨0, rfl⟩, .inl ⟨3, rfl⟩⟩
  names := ⟨by simp, by simp, Host.bare_keeps _⟩
  tree := ⟨trivial, trivial, trivial⟩
  avoids family mem := by
    have named : highWater.families = ["level"] := by decide +kernel
    rw [named, mem_singleton] at mem
    rw [mem]
    exact level_plain

theorem zeros_admits_gauge : gauge.model.Admits zeros := by
  intro v mem
  rw [mem_singleton.mp mem]
  refine ⟨?_, ?_, trivial⟩
  · exact Number.atMost_int.mpr (by norm_num [zeros])
  · exact Number.atLeast_int.mpr (by norm_num [zeros])

theorem highWater_compiles : ∃ p s', (compile wholeSlack highWater {}).run gauge = (.ok p, s') := by
  obtain ⟨p, ran⟩ := exists_run_ok (x := compile wholeSlack highWater {}) (s := gauge)
    (by decide +kernel)
  exact ⟨p, _, ran⟩

/-- **Soundness.** At every assignment that respects the bounds and kinds of all variables and the
rows that a compilation added, the polynomial has a value that the tree means, and the only one if
no piecewise linear function of variables occurs. At integers the value is what its evaluation
gives. -/
theorem compile_sound (input : ExactInput cfg False s.model ctx e)
    (ran : (compile cfg e ctx).run s = (.ok p, s')) {a : Assignment}
    (admits : s'.model.Admits a) (added : NewRowsHold s.model s'.model a) :
    Means s.model a ctx e (p.valueAt a)
      ∧ (e.Exact True → ∀ v, Means s.model a ctx e v → v = p.valueAt a)
      ∧ ∀ z : VarKey → Int, (∀ key, a.value key = z key) →
        ∃ n : Int, p.evaluate (fun key => some (.int (z key))) = .ok (.int n)
          ∧ (n : ℚ) = p.valueAt a := by
  obtain ⟨formed, realizes⟩ := compile_realizes input ran
  have means := realizes.reading admits added
  refine ⟨means, fun isPlain v other => (means.unique isPlain other).symm, ?_⟩
  exact fun z whole => formed.whole.evaluate_ints whole

theorem highWater_sound : ∃ p s' a, (compile wholeSlack highWater {}).run gauge = (.ok p, s')
    ∧ s'.model.Admits a ∧ NewRowsHold gauge.model s'.model a
    ∧ Means gauge.model a {} highWater (p.valueAt a) := by
  obtain ⟨p, s', ran⟩ := highWater_compiles
  obtain ⟨-, realizes⟩ := compile_realizes (highWater_input True) ran
  obtain ⟨v, means⟩ := realizes.total trivial zeros zeros_admits_gauge
  obtain ⟨a, -, admits, added, -⟩ := realizes.extend zeros_admits_gauge means
  exact ⟨p, s', a, ran, admits, added, (compile_sound (highWater_input False) ran admits added).1⟩

/-- **Completeness.** Every value that a tree means at an assignment that respects the bounds and
kinds of the variables so far is the polynomial's value at some values of the variables that the
compilation added, within their bounds and kinds and under the rows it added. -/
theorem compile_complete (input : ExactInput cfg False s.model ctx e)
    (ran : (compile cfg e ctx).run s = (.ok p, s')) {a : Assignment} {v : ℚ}
    (admits : s.model.Admits a) (means : Means s.model a ctx e v) :
    ∃ a' : Assignment, (∀ u ∈ s.model.columns, a'.value u.key = a.value u.key)
      ∧ s'.model.Admits a' ∧ NewRowsHold s.model s'.model a' ∧ p.valueAt a' = v := by
  obtain ⟨-, realizes⟩ := compile_realizes input ran
  obtain ⟨a', agrees, admits', added, value⟩ := realizes.extend admits means
  exact ⟨a', agrees.columns, admits', added, value⟩

theorem highWater_complete : ∃ p s' v a, (compile wholeSlack highWater {}).run gauge = (.ok p, s')
    ∧ Means gauge.model zeros {} highWater v ∧ s'.model.Admits a
    ∧ NewRowsHold gauge.model s'.model a ∧ p.valueAt a = v := by
  obtain ⟨p, s', ran⟩ := highWater_compiles
  obtain ⟨v, means⟩ :=
    (compile_realizes (highWater_input True) ran).2.total trivial zeros zeros_admits_gauge
  obtain ⟨a, -, admits, added, value⟩ :=
    compile_complete (highWater_input False) ran zeros_admits_gauge means
  exact ⟨p, s', v, a, ran, means, admits, added, value⟩

end Tree

end Compilation

end LinearProgram
