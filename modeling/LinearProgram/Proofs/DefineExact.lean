import LinearProgram.Proofs.CompileCorrect
import LinearProgram.Proofs.DeclaredBounds
import LinearProgram.Proofs.Feasibility

/-!
# Blocks of statements are exact

What a statement demands of an assignment is said without compiling anything (`Statement.HoldsAt`).
Each statement adds its demand to that which the model is faithful to (`applyStatement_carried`);
the rest is induction over the block.
-/

namespace LinearProgram

open List

variable {k : Int} {m : Model} {name value : Value} {last : Statement}

/-! ## What statements demand -/

/-- How a comparison relates values in a constraint; a strict one stands for its non-strict form. -/
def Comparison.Relates : Comparison → ℚ → ℚ → Prop
  | .eq, x, y => x = y
  | .ne, x, y => x ≠ y
  | .le, x, y | .lt, x, y => x ≤ y
  | .ge, x, y | .gt, x, y => y ≤ x

/-- The value that a bound has under the names in scope. -/
def Datum.Gives (ctx : Context) : Datum → Value → Prop
  | .data value, v => v = value
  | .tree e, v => e.evaluate ctx = .ok v

/-- A value that is one of the declared kind and respects the declared bounds. -/
def MeetsDeclaration (ctx : Context) (kind : Value) (lower upper : Datum) (q : ℚ) : Prop :=
  ∃ (k : VariableKind) (low high : Value), k.NamedBy kind ∧ lower.Gives ctx low
    ∧ upper.Gives ctx high ∧ k.Takes q ∧ Bound.AsksLower low q ∧ Bound.AsksUpper high q

/-- What a statement demands of an assignment, where `m` has the instances declared before it. -/
def Statement.HoldsAt (params : Parameters) (m : Model) (a : Assignment) : Statement → Prop
  | .variableFamily name gens kind lower upper _ =>
    ∀ ctx ∈ (bindings gens { parameters := params }).items,
      MeetsDeclaration ctx kind lower upper (a.value ⟨name.text, indexValues gens ctx⟩)
  | .constraintFamily op left right gens _ =>
    ∀ ctx ∈ (bindings gens { parameters := params }).items, ∃ x y,
      Means m a ctx left x ∧ Means m a ctx right y ∧ op.Relates x y
  | .objective _ _ => True

/-- A statement over exact data that neither declares nor refers to an auxiliary family. -/
def Statement.Exact (cfg : Config) : Statement → Prop
  | .variableFamily name gens _ lower upper _ =>
    ¬ cfg.IsAuxiliary name.text ∧ ExactDomains True gens
      ∧ lower.Exact True ∧ upper.Exact True
  | .constraintFamily _ left right gens _ =>
    ExactDomains True gens ∧ Compilation.Admissible cfg True left
      ∧ Compilation.Admissible cfg True right
  | .objective expr _ => Compilation.Admissible cfg True expr

namespace Compilation

open Assembly

variable {cfg : Config} {params : Parameters}

/-! ## Loops -/

theorem foldlM_builds {α σ : Type} {f : σ → α → Assembly σ} {items : List α}
    (condition : α → Assignment → Prop) (I : Model → Prop)
    (each : ∀ i ∈ items, ∀ {done r : σ} {s s' : Store}, I s.model → (f done i).run s = (.ok r, s') →
      I s'.model ∧ Builds cfg s.model s'.model (condition i)) {start r : σ} {s s' : Store}
    (entry : I s.model) (ran : (items.foldlM f start).run s = (.ok r, s')) :
    I s'.model ∧ Builds cfg s.model s'.model fun a => ∀ i ∈ items, condition i a := by
  induction items generalizing start s with
  | nil =>
    obtain ⟨-, rfl⟩ := run_pure_ok ran
    exact ⟨entry, (Builds.of_same rfl rfl).congr (by simp)⟩
  | cons first _ ih =>
    rw [foldlM_cons] at ran
    obtain ⟨middle, s₁, once, ran⟩ := run_bind_ok.mp ran
    obtain ⟨kept, builds⟩ := each first mem_cons_self entry once
    obtain ⟨kept', builds'⟩ :=
      ih (fun i mem => each i (mem_cons_of_mem _ mem)) kept ran
    exact ⟨kept', (builds.trans builds').congr fun a => forall_mem_cons⟩

/-! ## Variables -/

/-- A bound that can be read has the value that it gives. -/
theorem boundValue_gives {ctx : Context} {bound : Datum}
    (given : boundValue ctx bound = .ok value) (v : Value) :
    bound.Gives ctx v ↔ v = value := by
  cases bound with
  | data =>
    cases given
    exact Iff.rfl
  | tree e =>
    rw [boundValue] at given
    split at given
    · rw [Datum.Gives, given]
      exact ⟨fun same => (Except.ok.inj same).symm, fun same => same ▸ rfl⟩
    · exact absurd given (raise_ne_ok _ _)

theorem boundValue_exact {ctx : Context} {bound : Datum} (isExact : ctx.Exact)
    (exact : bound.Exact True) (given : boundValue ctx bound = .ok value) : value.Exact := by
  cases bound with
  | data =>
    cases given
    exact exact
  | tree e =>
    rw [boundValue] at given
    split at given
    · exact (e.evaluate_exact isExact exact).of_ok given
    · exact absurd given (raise_ne_ok _ _)

/-- A family of variables demands that the kind and the bounds of its instances are respected. -/
theorem addVariables_builds {gens : List GeneratorItem} {kind : Value} {lower upper : Datum}
    {desc : Value} {s s' : Store} {declared : List Variable}
    (names : params.Exact)
    (exact : (Statement.variableFamily name gens kind lower upper desc).Exact cfg)
    (ran : (addVariables cfg params name gens kind lower upper desc).run s
      = (.ok declared, s')) :
    s'.model.objective = s.model.objective
      ∧ Builds cfg s.model s'.model fun a =>
        (Statement.variableFamily name gens kind lower upper desc).HoldsAt
          params s.model a := by
  obtain ⟨plain, exactDomains, exactLower, exactUpper⟩ := exact
  obtain ⟨_, s₁, folded, ran⟩ := run_bind_ok.mp ran
  cases ran
  obtain ⟨before, after, entry, inner, exit⟩ := run_transaction_ok folded
  obtain ⟨-, inner⟩ := foldListing_ok inner
  have isExact : Context.Exact { parameters := params } := ⟨by simp, names⟩
  rw [show (s₁.model = after.model) from exit, ← entry]
  refine foldlM_builds _ (fun m => m.objective = before.model.objective) ?_ rfl inner
  intro ctx mem done r t t' kept ran
  have exactContext := bindings_exact isExact exactDomains mem
  obtain ⟨low, isLow, ran⟩ := run_lift_bind_ok.mp ran
  obtain ⟨high, isHigh, ran⟩ := run_lift_bind_ok.mp ran
  obtain ⟨text, -, ran⟩ := run_lift_bind_ok.mp ran
  obtain ⟨v, t₄, added, ran⟩ := run_bind_ok.mp ran
  obtain ⟨-, rfl⟩ := run_pure_ok ran
  obtain ⟨key, isKind, isLower, isUpper, checked, flag, model⟩ := declareVariable_ok added
  have lowExact := boundValue_exact exactContext exactLower isLow
  have highExact := boundValue_exact exactContext exactUpper isHigh
  have exactBounds : v.ExactBounds := Variable.exactBounds_of_check checked
    (Bound.ofValue_exact lowExact isLower) (Bound.ofValue_exact highExact isUpper)
  have isPlain : ¬ cfg.IsAuxiliary v.key.family := by
    rw [key]
    exact plain
  rw [model]
  -- the variable that was added is the one that the kind and the bounds of the statement describe
  refine ⟨kept, (Builds.addVariable exactBounds flag isPlain).congr fun a => ?_⟩
  simp only [MeetsDeclaration, boundValue_gives isLow, boundValue_gives isHigh,
    ← VariableKind.ofValue_ok_iff, isKind]
  unfold Variable.Admits
  rw [Variable.allows_iff_asked checked lowExact isLower highExact isUpper, key]
  constructor
  · rintro ⟨k, l, u, same, rfl, rfl, asked⟩
    cases same
    exact asked
  · exact fun asked => ⟨v.kind, low, high, rfl, rfl, rfl, asked⟩

/-! ## Constraints -/

/-- The sign of a comparison stands for what the comparison demands; `!=` is refused. -/
theorem relationOf_ok {op : Comparison} {rel : Relation}
    (found : relationOf (.str op.sign) = .ok rel) (x y : ℚ) :
    rel.Relates x y ↔ op.Relates x y := by
  cases op with
  | ne => exact absurd found (raise_ne_ok _ _)
  | _ =>
    cases found
    exact Iff.rfl

/-- What a constraint demands under one binding. -/
def ConstraintHolds (m : Model) (op : Comparison) (left right : Expr) (ctx : Context)
    (a : Assignment) : Prop :=
  ∃ x y, Means m a ctx left x ∧ Means m a ctx right y ∧ op.Relates x y

theorem constraintHolds_plain {op : Comparison} {left right : Expr} {ctx : Context}
    (onLeft : Admissible cfg True left) (onRight : Admissible cfg True right) :
    PlainOnly cfg (ConstraintHolds m op left right ctx) := by
  rintro a a' same ⟨x, y, meansLeft, meansRight, related⟩
  have transfer : ∀ {e : Expr} {v : ℚ}, Admissible cfg True e → Means m a ctx e v →
      Means m a' ctx e v := fun admissible means =>
    means.transfer (P := fun family => ¬ cfg.IsAuxiliary family) (fun _ _ => .refl _ m)
      (fun key plain _ => same key plain) admissible.avoids
  exact ⟨x, y, transfer onLeft meansLeft, transfer onRight meansRight, related⟩

/-- The constraint of one binding is a condition on the instances declared before the statement. -/
theorem addConstraintInstance_realizes (slack : cfg.bigMSlack = .int k) (one : 1 ≤ k) {m : Model}
    {op : Comparison} {left right : Expr} {gens : List GeneratorItem} {desc : Value}
    {ctx : Context} {s s' : Store} {r : Option Constraint}
    (onLeft : Admissible cfg True left) (onRight : Admissible cfg True right)
    (isExact : ctx.Exact) (bounds : s.model.ExactBounds)
    (ext : Extension cfg m s.model)
    (ran : (addConstraintInstance cfg op left right gens desc ctx).run s
      = (.ok r, s')) :
    Realizes cfg False s.model s'.model (fun _ => ()) fun a _ =>
      ConstraintHolds m op left right ctx a := by
  obtain ⟨shown, -, ran⟩ := run_lift_bind_ok.mp ran
  obtain ⟨_, s₁, registered, ran⟩ := run_bind_ok.mp ran
  have model₁ := registerDeclaration_ok registered
  have same : s.model.Same s₁.model := by
    rw [model₁]
    exact ⟨rfl, rfl, rfl, rfl⟩
  have extension₁ := ext.trans (same.extension cfg)
  -- both sides mean what they mean over `m`, however much the model has grown since
  obtain ⟨lhs, s₂, compiledLeft, ran⟩ := run_bind_ok.mp ran
  obtain ⟨formedLeft, realizesLeft⟩ := compileWithin_captures slack one left.weight m isExact onLeft
    s₁ lhs s₂ ((same.extension cfg).exact bounds) extension₁ compiledLeft
  have extension₂ := extension₁.trans realizesLeft.extension
  obtain ⟨rhs, s₃, compiledRight, ran⟩ := run_bind_ok.mp ran
  obtain ⟨formedRight, realizesRight⟩ := compileWithin_captures slack one right.weight m isExact
    onRight s₂ rhs s₃ (realizesLeft.extension.exact ((same.extension cfg).exact bounds))
    extension₂ compiledRight
  obtain ⟨label, -, ran⟩ := run_lift_bind_ok.mp ran
  obtain ⟨rel, found, ran⟩ := run_lift_bind_ok.mp ran
  have row := addConstraint_realizes (realizesRight.extension.formed formedLeft) formedRight ran
  have sides := realizesLeft.relax.bind (fun _ a y => Means m a ctx right y) realizesRight.relax
    fun _ => (means_local cfg m ctx right).of_extension extension₁
  have whole := sides.bind (fun v _ _ => rel.Relates v.1 v.2) row fun _ _ _ _ _ => Iff.rfl
  refine (whole.map (fun _ => ()) (fun _ => rfl) fun a _ w => ?_).same_left same
  constructor
  · rintro ⟨x, y, meansLeft, meansRight, related⟩
    exact ⟨((x, y), ()), ⟨⟨meansLeft, meansRight⟩, (relationOf_ok found x y).mpr related⟩, rfl⟩
  · rintro ⟨⟨⟨x, y⟩, _⟩, ⟨⟨meansLeft, meansRight⟩, related⟩, -⟩
    exact ⟨x, y, meansLeft, meansRight, (relationOf_ok found x y).mp related⟩

/-- A family of constraints demands that its two sides relate under every binding. -/
theorem addConstraints_builds (slack : cfg.bigMSlack = .int k) (one : 1 ≤ k) {op : Comparison}
    {left right : Expr} {gens : List GeneratorItem} {desc : Value} {s s' : Store}
    {declared : List Constraint} (names : params.Exact)
    (exact : (Statement.constraintFamily op left right gens desc).Exact cfg)
    (bounds : s.model.ExactBounds)
    (ran : (addConstraints cfg params op left right gens desc).run s
      = (.ok declared, s')) :
    s'.model.objective = s.model.objective
      ∧ Builds cfg s.model s'.model fun a =>
        (Statement.constraintFamily op left right gens desc).HoldsAt
          params s.model a := by
  obtain ⟨exactDomains, onLeft, onRight⟩ := exact
  obtain ⟨before, after, entry, inner, exit⟩ := run_transaction_ok ran
  obtain ⟨-, inner⟩ := foldListing_ok inner
  have isExact : Context.Exact { parameters := params } := ⟨by simp, names⟩
  rw [exit, ← entry]
  rw [← entry] at bounds
  -- all bindings are compiled above the model at the start of the statement
  suffices loop : (Extension cfg before.model after.model ∧ after.model.ExactBounds)
      ∧ Builds cfg before.model after.model fun a =>
        ∀ ctx ∈ (bindings gens { parameters := params }).items,
          ConstraintHolds before.model op left right ctx a by
    exact ⟨loop.1.1.objective, loop.2⟩
  refine foldlM_builds _ (fun m => Extension cfg before.model m ∧ m.ExactBounds) ?_
    ⟨Extension.refl cfg before.model, bounds⟩ inner
  rintro ctx mem done r t t' ⟨ext, exactBounds⟩ ran
  obtain ⟨c, t₁, added, ran⟩ := run_bind_ok.mp ran
  have same : t₁ = t' := by
    split at ran <;> exact (run_pure_ok ran).2
  subst same
  have realizes := addConstraintInstance_realizes slack one onLeft onRight
    (bindings_exact isExact exactDomains mem) exactBounds ext added
  exact ⟨⟨ext.trans realizes.extension, realizes.extension.exact exactBounds⟩,
    Builds.of_realizes realizes (constraintHolds_plain onLeft onRight)⟩

/-! ## The objective -/

/-- An objective demands nothing, and it is worth what its tree means. -/
theorem setObjective_builds (slack : cfg.bigMSlack = .int k) (one : 1 ≤ k) {expr : Expr}
    {direction : Value} {s s' : Store} {result : Objective}
    (names : params.Exact) (exact : Admissible cfg True expr)
    (bounds : s.model.ExactBounds)
    (ran : (setObjective cfg params expr direction false).run s = (.ok result, s')) :
    s.model.objective = none
      ∧ (∃ o, s'.model.objective = some o ∧ ∀ a, s'.model.Feasible a →
        Means s.model a { parameters := params } expr (o.polynomial.valueAt a))
      ∧ Builds cfg s.model s'.model fun _ => True := by
  obtain ⟨before, after, entry, inner, exit⟩ := run_transaction_ok ran
  rw [exit, ← entry]
  rw [← entry] at bounds
  obtain ⟨p, s₁, compiled, inner⟩ := run_bind_ok.mp inner
  obtain ⟨direction', -, inner⟩ := run_lift_bind_ok.mp inner
  obtain ⟨absent, model⟩ := setObjective_ok inner
  have input : ExactInput cfg True before.model { parameters := params } expr :=
    ⟨⟨k, slack, one⟩, bounds, ⟨by simp, names⟩, exact.exact, exact.avoids⟩
  obtain ⟨-, realizes⟩ := compile_realizes input compiled
  -- the tree has a value everywhere, so its auxiliary rows exclude nothing
  have built : Builds cfg before.model s₁.model fun _ => True := by
    refine Builds.of_realizes (realizes.relax.map (fun _ => ()) (fun _ => rfl) ?_)
      fun _ _ _ _ => trivial
    intro a admits w
    obtain ⟨v, means⟩ := realizes.total trivial a (admits trivial)
    exact iff_of_true trivial ⟨v, means, rfl⟩
  have set : Builds cfg s₁.model after.model fun _ => True := by
    rw [model]
    exact Builds.of_same rfl rfl
  refine ⟨realizes.extension.objective ▸ absent rfl, ⟨⟨p, direction'⟩, by rw [model], ?_⟩,
    (built.trans set).congr (by simp)⟩
  intro a feasible
  obtain ⟨admits, rows⟩ := set.feasible a feasible
  refine realizes.reading admits fun c mem => ?_
  obtain ⟨new, constraints, formed⟩ := realizes.extension.constraints
  have isNew : c ∈ new := by
    rw [constraints, drop_left] at mem
    exact mem
  exact (Constraint.holdsNormalized_iff (formed c isNew).1 (formed c isNew).2 a).mp
    (rows c (mem_of_mem_drop mem))

/-! ## Statements one after the other -/

/-- What a statement does to a model: it adds its demand, it leaves an objective alone that is
already set, and if it sets one, that one is worth what its tree means. -/
structure Carried (cfg : Config) (params : Parameters) (stmt : Statement) (m m' : Model) :
    Prop where
  builds : Builds cfg m m' fun a => stmt.HoldsAt params m a
  keeps : ∀ o, m.objective = some o → m'.objective = some o
  sets : ∀ expr direction, stmt = .objective expr direction →
    ∃ o, m'.objective = some o ∧ ∀ a, m'.Feasible a →
      Means m a { parameters := params } expr (o.polynomial.valueAt a)

/-- A statement that succeeds adds its demand. -/
theorem applyStatement_carried (slack : cfg.bigMSlack = .int k) (one : 1 ≤ k)
    {stmt : Statement} {s s' : Store} {added : Added}
    (names : params.Exact) (exact : stmt.Exact cfg)
    (bounds : s.model.ExactBounds)
    (ran : (applyStatement cfg params false stmt).run s = (.ok added, s')) :
    Carried cfg params stmt s.model s'.model := by
  cases stmt with
  | variableFamily =>
    obtain ⟨declared, s₁, carried, done⟩ := run_bind_ok.mp ran
    obtain ⟨-, rfl⟩ := run_pure_ok done
    obtain ⟨same, builds⟩ := addVariables_builds names exact carried
    exact ⟨builds, fun o known => same.trans known, by simp⟩
  | constraintFamily =>
    obtain ⟨declared, s₁, carried, done⟩ := run_bind_ok.mp ran
    obtain ⟨-, rfl⟩ := run_pure_ok done
    obtain ⟨same, builds⟩ := addConstraints_builds slack one names exact bounds carried
    exact ⟨builds, fun o known => same.trans known, by simp⟩
  | objective =>
    obtain ⟨set, s₁, carried, done⟩ := run_bind_ok.mp ran
    obtain ⟨-, rfl⟩ := run_pure_ok done
    obtain ⟨absent, sets, builds⟩ := setObjective_builds slack one names exact bounds carried
    refine ⟨builds, fun o known => ?_, ?_⟩
    · rw [absent] at known
      cases known
    · rintro expr' direction' same
      cases same
      exact sets

/-- The blocks whose models are exact: an integer slack, exact parameters and exact statements. -/
structure ExactBlock (cfg : Config) (params : Parameters) (statements : List Statement) :
    Prop where
  slack : ∃ k : Int, cfg.bigMSlack = .int k ∧ 1 ≤ k
  names : params.Exact
  statements : ∀ stmt ∈ statements, stmt.Exact cfg

/-- What a block demands: what each statement does, over the instances that the statements before it
declared. -/
def BlockHoldsAt (cfg : Config) (params : Parameters) (name : Value) (statements : List Statement)
    (a : Assignment) : Prop :=
  ∀ before stmt after, statements = before ++ stmt :: after →
    stmt.HoldsAt params (define cfg params name before).2.model a

/-- Where a statement of a block can stand: before the last one, or last. -/
theorem append_singleton_eq_iff {α : Type} {init before after : List α} {last x : α} :
    init ++ [last] = before ++ x :: after
      ↔ (∃ rest, after = rest ++ [last] ∧ init = before ++ x :: rest)
        ∨ after = [] ∧ init = before ∧ last = x := by
  constructor
  · intro split
    rcases eq_nil_or_concat after with rfl | ⟨rest, y, rfl⟩
    · obtain ⟨rfl, same⟩ := append_inj' split rfl
      exact .inr ⟨rfl, rfl, singleton_inj.mp same⟩
    · rw [concat_eq_append, ← cons_append, ← append_assoc] at split
      obtain ⟨rfl, same⟩ := append_inj' split rfl
      rw [singleton_inj.mp same, concat_eq_append]
      exact .inl ⟨rest, rfl, rfl⟩
  · rintro (⟨rest, rfl, rfl⟩ | ⟨rfl, rfl, rfl⟩)
    · simp
    · rfl

theorem blockHoldsAt_append {init : List Statement} {a : Assignment} :
    BlockHoldsAt cfg params name (init ++ [last]) a
      ↔ BlockHoldsAt cfg params name init a
        ∧ last.HoldsAt params (define cfg params name init).2.model a := by
  simp only [BlockHoldsAt, append_singleton_eq_iff]
  constructor
  · intro holds
    refine ⟨fun before stmt after split => ?_, ?_⟩
    · exact holds before stmt (after ++ [last]) (.inl ⟨after, rfl, split⟩)
    · exact holds init last [] (.inr ⟨rfl, rfl, rfl⟩)
  · rintro ⟨earlier, atLast⟩ before stmt after (⟨rest, -, split⟩ | ⟨-, rfl, rfl⟩)
    · exact earlier before stmt rest split
    · exact atLast

theorem define_append {init : List Statement} {s' : Store}
    (ran : define cfg params name (init ++ [last]) = (.ok (), s')) :
    ∃ s added, define cfg params name init = (.ok (), s)
      ∧ (applyStatement cfg params false last).run s = (.ok added, s') := by
  rw [define, applyStatements, forM_eq_forM, forM_append] at ran
  obtain ⟨_, s, first, ran⟩ := run_bind_ok.mp ran
  obtain ⟨_, s₁, second, done⟩ := run_bind_ok.mp ran
  obtain ⟨added, s₂, carried, closed⟩ := run_bind_ok.mp second
  cases done
  cases closed
  exact ⟨s, added, first, carried⟩

/-! ## Blocks -/

section Block

variable {name : Value} {statements : List Statement} {s : Store}

/-- What a finished block leaves behind. -/
structure Defined (cfg : Config) (params : Parameters) (name : Value)
    (statements : List Statement) (m : Model) : Prop where
  faithful : Faithful cfg m (BlockHoldsAt cfg params name statements)
  objective : ∀ before expr direction after,
    statements = before ++ .objective expr direction :: after →
    ∃ o, m.objective = some o ∧ ∀ a, m.Feasible a →
      Means (define cfg params name before).2.model a { parameters := params } expr
        (o.polynomial.valueAt a)

theorem blockHoldsAt_nil (a : Assignment) : BlockHoldsAt cfg params name [] a :=
  fun before _ _ split => absurd split (by simp)

theorem Defined.append {m' : Model} (defined : Defined cfg params name statements m)
    (at_end : (define cfg params name statements).2.model = m)
    (carried : Carried cfg params last m m') :
    Defined cfg params name (statements ++ [last]) m' where
  faithful := by
    refine (carried.builds.faithful defined.faithful).congr fun a => ?_
    rw [blockHoldsAt_append, at_end]
  objective before expr direction after split := by
    rcases append_singleton_eq_iff.mp split with ⟨rest, -, earlier⟩ | ⟨-, rfl, isObjective⟩
    · obtain ⟨o, known, means⟩ := defined.objective before expr direction rest earlier
      exact ⟨o, carried.keeps o known,
        fun a feasible => means a (carried.builds.feasible a feasible)⟩
    · rw [at_end]
      exact carried.sets expr direction isObjective

/-- Every block over exact data that succeeds leaves behind what it says. -/
theorem define_defined (exact : ExactBlock cfg params statements)
    (ran : define cfg params name statements = (.ok (), s)) :
    Defined cfg params name statements s.model := by
  obtain ⟨k, slack, one⟩ := exact.slack
  have exactStatements := exact.statements
  induction statements using List.reverseRecOn generalizing s with
  | nil =>
    cases ran
    exact ⟨(Faithful.empty cfg name).congr fun a => iff_true_intro (blockHoldsAt_nil a),
      by simp⟩
  | append_singleton _ last ih =>
    obtain ⟨s₁, added, first, applied⟩ := define_append ran
    rw [forall_mem_append] at exactStatements
    have defined := ih ⟨exact.slack, exact.names, exactStatements.1⟩ first exactStatements.1
    have carried := applyStatement_carried slack one exact.names
      (exactStatements.2 last mem_cons_self) defined.faithful.bounds applied
    exact defined.append (by rw [first]) carried

def level : Statement :=
  .variableFamily (.str "level") [] (.str "continuous") (.data (.int 0)) (.data (.int 3)) .none

def levelCap : Statement := .constraintFamily .le highWater (.literal (.int 2)) [] .none

/-- A block with one statement of each form. -/
def tank : List Statement := [level, levelCap, .objective highWater (.str "min")]

theorem tank_input : ExactBlock wholeSlack {} tank where
  slack := ⟨1, rfl, le_refl 1⟩
  names := ⟨by simp, Host.bare_keeps _⟩
  statements := by
    have admissible : Admissible wholeSlack True highWater :=
      ⟨(highWater_input True).tree, (highWater_input True).avoids⟩
    have closed : (Expr.literal (.int 2)).families = [] := by decide +kernel
    have two : Admissible wholeSlack True (.literal (.int 2)) :=
      ⟨trivial, by simp [Expr.Avoids, closed]⟩
    simp only [tank, level, levelCap, forall_mem_cons]
    exact ⟨⟨level_plain, trivial, trivial, trivial⟩, ⟨trivial, admissible, two⟩, admissible,
      by simp⟩

theorem means_literal (m : Model) (a : Assignment) (ctx : Context) (n : Int) :
    Means m a ctx (.literal (.int n)) n :=
  .constant (by rw [Expr.isConstant_eq]; rfl) rfl rfl

theorem highWater_means
    (declared : (resolveReference (some m) (.str "level") [] {}).toBool = true) :
    Means m zeros {} highWater 1 := by
  rcases given : resolveReference (some m) (.str "level") [] {} with e | key
  · rw [given] at declared
    cases declared
  · have isOpen : highWater.isConstant = false := by decide +kernel
    have one := means_literal m zeros {} 1
    refine .aggregate isOpen rfl (.cons (.ref given) (.cons one .nil)) ?_
    simp [Aggregate.Joins, zeros]

theorem tank_holdsAt_zeros : BlockHoldsAt wholeSlack {} .none tank zeros := by
  have continuous : VariableKind.continuous.NamedBy (.str "continuous") :=
    ⟨"continuous", by decide, spells_toList.mpr (by decide +kernel)⟩
  have declared : (resolveReference (some (define wholeSlack {} .none [level]).2.model)
      (.str "level") [] {}).toBool = true := by decide +kernel
  change BlockHoldsAt _ _ _ ([] ++ [level] ++ [levelCap] ++ [.objective highWater _]) zeros
  rw [blockHoldsAt_append, blockHoldsAt_append, blockHoldsAt_append]
  refine ⟨⟨⟨blockHoldsAt_nil zeros, ?_⟩, ?_⟩, trivial⟩
  · intro ctx _
    refine ⟨.continuous, .int 0, .int 3, continuous, rfl, rfl, trivial, ?_, ?_⟩
    · exact .number rfl (by norm_num [zeros])
    · exact .number rfl (by norm_num [zeros])
  · intro ctx mem
    rw [mem_singleton.mp mem]
    exact ⟨1, 2, highWater_means declared, means_literal _ _ _ 2, by norm_num [Comparison.Relates]⟩

end Block

end Compilation

end LinearProgram
