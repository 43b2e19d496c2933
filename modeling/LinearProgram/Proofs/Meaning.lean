import LinearProgram.Proofs.Instances
import LinearProgram.Proofs.Connectives
import LinearProgram.Proofs.Piecewise

/-!
# The meaning of trees

`Means m a ctx e v` says that the tree `e` has the value `v` at the assignment `a`, without
polynomials or auxiliary variables. Both branches of a choice must mean something, and a piecewise
linear function may take any segment that holds its operand. A meaning depends on the instances of
the families of the tree only (`Means.transfer`), and is unique without such functions
(`Means.unique`).
-/

namespace LinearProgram

open List LinearProgram.Expr

variable {e operand : Expr} {op : Aggregate} {args indices : List Expr} {ctx : Context}
  {pairs terms : List (Context × Expr)} {v : ℚ}

/-- An arithmetic operator on exact numbers. -/
def Arithmetic.apply : Arithmetic → ℚ → ℚ → ℚ
  | .add, x, y => x + y
  | .sub, x, y => x - y
  | .mul, x, y => x * y
  | .div, x, y => x / y

/-- The trees that a summand stands for: its instances, if it is a pattern or has wildcards. -/
def Expr.summands (m : Model) (ctx : Context) (e : Expr) : Except Error (List Expr) :=
  let body := match e with
    | .each pattern => pattern
    | _ => e
  if body.hasWildcard then Wildcard.expand (some m) ctx body else .ok [body]

/-- The terms of a sum: what its summands stand for, each in its context. -/
def sumTerms (m : Model) : List (Context × Expr) → Except Error (List (Context × Expr))
  | [] => .ok []
  | (ctx, e) :: rest => do
    let trees ← e.summands m ctx
    let others ← sumTerms m rest
    pure (trees.map (ctx, ·) ++ others)

/-- The operands of an aggregate: its arguments, or the instances of its pattern. -/
def operandTrees (m : Model) (ctx : Context) (op : Aggregate) (args : List Expr) :
    Except Error (List Expr) :=
  match (aggregate op args).pattern? with
  | none => .ok args
  | some pattern => Wildcard.expand (some m) ctx pattern

mutual

/-- What a tree means at an assignment. -/
inductive Means (m : Model) (a : Assignment) : Context → Expr → ℚ → Prop where
  | constant {ctx : Context} {e : Expr} {value : Value} {v : ℚ} :
      e.isConstant = true → e.evaluate ctx = .ok value → value.rational? = some v →
      Means m a ctx e v
  | ref {ctx : Context} {name : Value} {indices : List Expr} {key : VarKey} :
      resolveReference (some m) name indices ctx = .ok key →
      Means m a ctx (.ref name indices) (a.value key)
  | arith {ctx : Context} {op : Arithmetic} {left right : Expr} {x y : ℚ} :
      (arith op left right).isConstant = false →
      Means m a ctx left x → Means m a ctx right y →
      Means m a ctx (.arith op left right) (op.apply x y)
  | negate {ctx : Context} {operand : Expr} {x : ℚ} :
      (negate operand).isConstant = false → Means m a ctx operand x →
      Means m a ctx (.negate operand) (-x)
  | sum {ctx : Context} {args : List Expr} {terms : List (Context × Expr)} {values : List ℚ} :
      (sum args).isConstant = false → sumTerms m (args.map (ctx, ·)) = .ok terms →
      MeansEach m a terms values → Means m a ctx (.sum args) values.sum
  | sumOver {ctx : Context} {body : Expr} {gens : List GeneratorItem}
      {contexts : List Context} {terms : List (Context × Expr)} {values : List ℚ} :
      (sumOver body gens).isConstant = false →
      bindings gens ctx = ⟨contexts, none⟩ →
      sumTerms m (contexts.map (·, body)) = .ok terms →
      MeansEach m a terms values → Means m a ctx (.sumOver body gens) values.sum
  | aggregate {ctx : Context} {op : Aggregate} {args operands : List Expr} {values : List ℚ}
      {v : ℚ} :
      (aggregate op args).isConstant = false →
      operandTrees m ctx op args = .ok operands →
      MeansEach m a (operands.map (ctx, ·)) values → op.Joins values v →
      Means m a ctx (.aggregate op args) v
  | ifThenElse {ctx : Context} {cond yes no : Expr} {c x y v : ℚ} :
      (ifThenElse cond yes no).isConstant = false →
      Means m a ctx cond c → Means m a ctx yes x →
      Means m a ctx no y → Chooses c x y v →
      Means m a ctx (.ifThenElse cond yes no) v
  | abs {ctx : Context} {operand : Expr} {x : ℚ} :
      (abs operand).isConstant = false → Means m a ctx operand x →
      Means m a ctx (.abs operand) |x|
  | piecewise {ctx : Context} {operand : Expr} {breakpoints slopes offsets : List Value}
      {g : Segment} {x v : ℚ} :
      (piecewise operand breakpoints slopes offsets).isConstant = false →
      Means m a ctx operand x → g ∈ Segment.ofData breakpoints slopes offsets →
      g.Gives x v → Means m a ctx (.piecewise operand breakpoints slopes offsets) v

/-- What trees mean, each in its context. -/
inductive MeansEach (m : Model) (a : Assignment) : List (Context × Expr) → List ℚ → Prop where
  | nil : MeansEach m a [] []
  | cons {ctx : Context} {e : Expr} {v : ℚ} {rest : List (Context × Expr)}
      {values : List ℚ} :
      Means m a ctx e v → MeansEach m a rest values →
      MeansEach m a ((ctx, e) :: rest) (v :: values)

end

theorem meansEach_iff {m : Model} {a : Assignment} {values : List ℚ} :
    MeansEach m a terms values
      ↔ Forall₂ (fun term v => Means m a term.1 term.2 v) terms values := by
  constructor
  · intro means
    induction terms generalizing values with
    | nil =>
      cases means
      exact .nil
    | cons _ _ ih =>
      cases means with
      | cons here later => exact .cons here (ih later)
  · intro related
    induction related with
    | nil => exact .nil
    | cons here _ ih => exact .cons here ih

/-! ## Where terms and operands come from -/

theorem Expr.Instance.trans {e' e'' : Expr} (first : e.Instance e') (second : e'.Instance e'') :
    e.Instance e'' :=
  ⟨⟨fun family mem => first.families family (second.families family mem),
    fun constant => second.constant (first.constant constant)⟩,
    fun plain exact => second.exact plain (first.exact plain exact)⟩

theorem Expr.instance_each (pattern : Expr) : (each pattern).Instance pattern :=
  ⟨⟨fun _ mem => mem_families_of_child mem_cons_self mem,
    fun constant => isConstant_of_child constant mem_cons_self⟩, fun _ exact => exact⟩

section Origin

variable {m : Model} {ctx : Context}

theorem summands_instances {trees : List Expr} (listed : e.summands m ctx = .ok trees) :
    ∀ t ∈ trees, e.Instance t := by
  have of_body : ∀ {body : Expr}, e.Instance body →
      (if body.hasWildcard then Wildcard.expand (some m) ctx body else .ok [body]) = .ok trees →
      ∀ t ∈ trees, e.Instance t := by
    intro body origin listed
    split at listed
    · exact fun t mem => origin.trans (Wildcard.expand_instances listed t mem)
    · cases listed
      rw [forall_mem_singleton]
      exact origin
  cases e with
  | each pattern => exact of_body (instance_each pattern) listed
  | _ => exact of_body (.refl _) listed

theorem sumTerms_instances (listed : sumTerms m pairs = .ok terms) :
    ∀ term ∈ terms, ∃ pair ∈ pairs, term.1 = pair.1 ∧ pair.2.Instance term.2 := by
  induction pairs generalizing terms with
  | nil =>
    cases listed
    simp
  | cons pair _ ih =>
    obtain ⟨trees, here, listed⟩ := bind_eq_ok.mp listed
    obtain ⟨others, later, done⟩ := bind_eq_ok.mp listed
    cases done
    intro term mem
    rcases mem_append.mp mem with head | tail
    · obtain ⟨t, inside, rfl⟩ := mem_map.mp head
      exact ⟨pair, mem_cons_self, rfl, summands_instances here t inside⟩
    · obtain ⟨p, known, origin⟩ := ih later term tail
      exact ⟨p, mem_cons_of_mem _ known, origin⟩

/-- The pattern of an aggregate is its one argument, or what that one wraps. -/
theorem pattern?_instance {pattern : Expr}
    (found : (aggregate op args).pattern? = some pattern) :
    ∃ arg ∈ args, arg.Instance pattern := by
  match args, found with
  | [], found => simp [Expr.pattern?] at found
  | first :: second :: rest, found => simp [Expr.pattern?] at found
  | [arg], found =>
    refine ⟨arg, mem_cons_self, ?_⟩
    unfold Expr.pattern? at found
    split at found
    case h_1 single =>
      cases single
      cases found
      exact instance_each _
    case h_2 single =>
      cases single
      split at found
      · cases found
        exact .refl _
      · cases found
    case h_3 => cases found

theorem operandTrees_instances {operands : List Expr}
    (listed : operandTrees m ctx op args = .ok operands) :
    ∀ t ∈ operands, ∃ arg ∈ args, arg.Instance t := by
  unfold operandTrees at listed
  split at listed
  case h_1 =>
    cases listed
    exact fun t mem => ⟨t, mem, .refl t⟩
  case h_2 pattern found =>
    obtain ⟨arg, argument, origin⟩ := pattern?_instance found
    exact fun t mem =>
      ⟨arg, argument, origin.trans (Wildcard.expand_instances listed t mem)⟩

end Origin

/-! ## What a meaning depends on -/

/-- A reference stands for a declared instance of its family. -/
theorem resolveReference_ok {m : Model} {name : Value} {key : VarKey}
    (given : resolveReference (some m) name indices ctx = .ok key) :
    key.family ∈ (ref name indices).families ∧ (m.declared? key).isSome = true := by
  obtain ⟨index, -, given⟩ := bind_eq_ok.mp given
  obtain ⟨declared, found, given⟩ := bind_eq_ok.mp given
  cases declared with
  | false =>
    simp only [Bool.false_eq_true, ↓reduceIte] at given
    split at given
    · split at given
      · exact absurd given (raise_ne_ok _ _)
      · exact absurd given (raise_ne_ok _ _)
    · exact absurd given (raise_ne_ok _ _)
  | true =>
    cases given
    unfold Model.declares at found
    split at found
    · exact absurd found (breakDown_ne_ok _ _)
    · split at found
      case h_1 family _ _ =>
        exact ⟨mem_families_ref family indices, Except.ok.inj found⟩
      case h_2 => cases found

section Transfer

variable {m m' : Model} {a a' : Assignment} {P : String → Prop}

theorem Expr.families_below {c : Expr} (families : ∀ family ∈ e.families, P family)
    (mem : c ∈ e.children) : ∀ family ∈ c.families, P family :=
  fun family inside => families family (mem_families_of_child mem inside)

theorem summands_alike (alike : m.AlikeOn e.families m') :
    e.summands m' ctx = e.summands m ctx := by
  have of_body : ∀ {body : Expr}, e.Instance body →
      (if body.hasWildcard then Wildcard.expand (some m') ctx body else .ok [body])
        = if body.hasWildcard then Wildcard.expand (some m) ctx body else .ok [body] := by
    intro body origin
    rw [Wildcard.expand_eq_of_alike fun family inside =>
      alike family (origin.families family inside)]
  cases e with
  | each pattern => exact of_body (instance_each pattern)
  | _ => exact of_body (.refl _)

theorem sumTerms_alike (alike : ∀ pair ∈ pairs, m.AlikeOn pair.2.families m') :
    sumTerms m' pairs = sumTerms m pairs := by
  induction pairs with
  | nil => rfl
  | cons _ _ ih =>
    rw [forall_mem_cons] at alike
    rw [sumTerms, sumTerms, summands_alike alike.1, ih alike.2]

theorem operandTrees_alike (alike : ∀ arg ∈ args, m.AlikeOn arg.families m') :
    operandTrees m' ctx op args = operandTrees m ctx op args := by
  unfold operandTrees
  split
  case h_1 => rfl
  case h_2 pattern found =>
    obtain ⟨arg, argument, origin⟩ := pattern?_instance found
    exact Wildcard.expand_eq_of_alike fun family inside =>
      alike arg argument family (origin.families family inside)

mutual

/-- Models that declare the same instances of a tree's families, and assignments that agree on
these, give it one meaning. -/
theorem Means.transfer (alike : ∀ families, (∀ family ∈ families, P family) → m.AlikeOn families m')
    (same : ∀ key : VarKey, P key.family → (m.declared? key).isSome = true →
      a'.value key = a.value key) {ctx : Context} {e : Expr} {v : ℚ} :
    Means m a ctx e v → (∀ family ∈ e.families, P family) → Means m' a' ctx e v
  | .constant closed evaluated number, _ => .constant closed evaluated number
  | .ref given, families => by
    obtain ⟨mem, declared⟩ := resolveReference_ok given
    rw [← same _ (families _ mem) declared]
    rw [← resolveReference_alike (alike _ families)] at given
    exact .ref given
  | .arith isOpen left right, families =>
    .arith isOpen (left.transfer alike same (families_below families mem_cons_self))
      (right.transfer alike same (families_below families (by simp [children])))
  | .negate isOpen operand, families =>
    .negate isOpen (operand.transfer alike same (families_below families mem_cons_self))
  | .sum isOpen listed values, families => by
    refine .sum isOpen ((sumTerms_alike ?_).trans listed) (values.transfer alike same ?_)
    · intro pair mem
      obtain ⟨arg, argument, rfl⟩ := mem_map.mp mem
      exact alike _ (families_below families argument)
    · intro term mem family inside
      obtain ⟨pair, known, -, origin⟩ := sumTerms_instances listed term mem
      obtain ⟨arg, argument, rfl⟩ := mem_map.mp known
      exact families_below families argument family (origin.families family inside)
  | .sumOver isOpen bound listed values, families => by
    refine .sumOver isOpen bound ((sumTerms_alike ?_).trans listed)
      (values.transfer alike same ?_)
    · intro pair mem
      obtain ⟨inner, -, rfl⟩ := mem_map.mp mem
      exact alike _ (families_below families mem_cons_self)
    · intro term mem family inside
      obtain ⟨pair, known, -, origin⟩ := sumTerms_instances listed term mem
      obtain ⟨inner, -, rfl⟩ := mem_map.mp known
      exact families_below families mem_cons_self family
        (origin.families family inside)
  | .aggregate isOpen listed values joins, families => by
    refine .aggregate isOpen ((operandTrees_alike ?_).trans listed)
      (values.transfer alike same ?_) joins
    · exact fun arg argument => alike _ (families_below families argument)
    · intro term mem family inside
      obtain ⟨t, known, rfl⟩ := mem_map.mp mem
      obtain ⟨arg, argument, origin⟩ := operandTrees_instances listed t known
      exact families_below families argument family (origin.families family inside)
  | .ifThenElse isOpen cond yes no chooses, families =>
    .ifThenElse isOpen
      (cond.transfer alike same (families_below families mem_cons_self))
      (yes.transfer alike same (families_below families (by simp [children])))
      (no.transfer alike same (families_below families (by simp [children])))
      chooses
  | .abs isOpen operand, families =>
    .abs isOpen (operand.transfer alike same (families_below families mem_cons_self))
  | .piecewise isOpen operand segment gives, families =>
    .piecewise isOpen
      (operand.transfer alike same (families_below families mem_cons_self)) segment gives

theorem MeansEach.transfer
    (alike : ∀ families, (∀ family ∈ families, P family) → m.AlikeOn families m')
    (same : ∀ key : VarKey, P key.family → (m.declared? key).isSome = true →
      a'.value key = a.value key) {terms : List (Context × Expr)} {values : List ℚ} :
    MeansEach m a terms values → (∀ term ∈ terms, ∀ family ∈ term.2.families, P family) →
      MeansEach m' a' terms values
  | .nil, _ => .nil
  | .cons here later, families =>
    .cons (here.transfer alike same (forall_mem_cons.mp families).1)
      (later.transfer alike same (forall_mem_cons.mp families).2)

end

/-- A meaning looks at no new variable. -/
theorem means_local (cfg : Config) (m : Model) (ctx : Context) (e : Expr) :
    Local cfg m fun a v => Means m a ctx e v := by
  have one : ∀ {a a' : Assignment} {v : ℚ},
      (∀ u ∈ m.columns, a'.value u.key = a.value u.key) →
      Means m a ctx e v → Means m a' ctx e v := by
    intro a a' v columns means
    refine means.transfer (P := fun _ => True) (fun _ _ => .refl _ m) ?_ fun _ _ => trivial
    intro key _ declared
    obtain ⟨u, found⟩ := Option.isSome_iff_exists.mp declared
    obtain ⟨known, same⟩ := Model.declared?_some found
    rw [← a'.respects same, ← a.respects same]
    exact columns u known
  intro a a' v agrees
  exact ⟨one fun u mem => (agrees.columns u mem).symm, one agrees.columns⟩

end Transfer

/-! ## Sums -/

section Sums

variable {m : Model} {a : Assignment}

/-- What a summand contributes to a sum. -/
def MeansSummand (m : Model) (a : Assignment) (ctx : Context) (e : Expr) (v : ℚ) : Prop :=
  ∃ trees values, e.summands m ctx = .ok trees
    ∧ MeansEach m a (trees.map (ctx, ·)) values ∧ v = values.sum

theorem meansSummand_local (cfg : Config) (m : Model) (ctx : Context) (e : Expr) :
    Local cfg m fun a v => MeansSummand m a ctx e v := by
  intro a a' v agrees
  have each : ∀ (terms : List (Context × Expr)) (values : List ℚ),
      MeansEach m a' terms values ↔ MeansEach m a terms values := by
    intro terms values
    rw [meansEach_iff, meansEach_iff]
    exact Expresses.local_forall₂
      (D := fun (term : Context × Expr) a v => Means m a term.1 term.2 v)
      (fun term _ => means_local cfg m term.1 term.2) a a' values agrees
  simp only [MeansSummand, each]

theorem sumTerms_iff :
    (∃ terms values, sumTerms m pairs = .ok terms ∧ MeansEach m a terms values ∧ v = values.sum)
      ↔ ∃ sums, Forall₂ (fun pair w => MeansSummand m a pair.1 pair.2 w) pairs sums
        ∧ v = sums.sum := by
  induction pairs generalizing v with
  | nil =>
    constructor
    · rintro ⟨terms, values, listed, means, rfl⟩
      cases listed
      cases means
      exact ⟨[], .nil, rfl⟩
    · rintro ⟨sums, related, rfl⟩
      cases related
      exact ⟨[], [], rfl, .nil, rfl⟩
  | cons pair _ ih =>
    simp only [meansEach_iff] at ih ⊢
    constructor
    · rintro ⟨terms, values, listed, means, rfl⟩
      obtain ⟨trees, here, listed⟩ := bind_eq_ok.mp listed
      obtain ⟨others, later, done⟩ := bind_eq_ok.mp listed
      cases done
      -- the values split where the terms of the first summand end
      have left := (forall₂_take_append _ _ _ means.flip).flip
      have right := (forall₂_drop_append _ _ _ means.flip).flip
      obtain ⟨sums, related, total⟩ := ih.mp ⟨others, _, later, right, rfl⟩
      refine ⟨_, .cons ⟨trees, _, here, meansEach_iff.mpr left, rfl⟩ related, ?_⟩
      rw [sum_cons, ← total, ← sum_append, take_append_drop]
    · rintro ⟨sums, related, rfl⟩
      obtain ⟨w, rest', ⟨trees, first, here, left, rfl⟩, later, rfl⟩ :=
        forall₂_cons_left_iff.mp related
      obtain ⟨others, second, listed, right, total⟩ := ih.mpr ⟨rest', later, rfl⟩
      refine ⟨trees.map (pair.1, ·) ++ others, first ++ second, ?_, ?_, ?_⟩
      · exact bind_eq_ok.mpr ⟨trees, here, bind_eq_ok.mpr ⟨others, listed, rfl⟩⟩
      · exact rel_append (meansEach_iff.mp left) right
      · rw [sum_cons, sum_append, total]

end Sums

/-! ## One rule per node -/

section Rules

variable {m : Model} {a : Assignment} {ctx : Context} {v : ℚ}

theorem means_constant_iff (closed : e.isConstant = true) :
    Means m a ctx e v
      ↔ ∃ value, e.evaluate ctx = .ok value ∧ value.rational? = some v := by
  constructor
  · intro means
    cases means with
    | constant _ evaluated number => exact ⟨_, evaluated, number⟩
    | ref =>
      rw [isConstant_eq] at closed
      cases closed
    | arith isOpen | negate isOpen | sum isOpen | sumOver isOpen | aggregate isOpen
    | ifThenElse isOpen | abs isOpen | piecewise isOpen =>
      exact absurd (closed.symm.trans isOpen) (by decide)
  · rintro ⟨value, evaluated, number⟩
    exact .constant closed evaluated number

/-- What an open node means, by what its parts mean. -/
def NodeMeans (m : Model) (a : Assignment) (ctx : Context) : Expr → ℚ → Prop
  | .ref name indices, v =>
    ∃ key, resolveReference (some m) name indices ctx = .ok key ∧ v = a.value key
  | .arith op left right, v =>
    ∃ x y, Means m a ctx left x ∧ Means m a ctx right y ∧ v = op.apply x y
  | .negate operand, v => ∃ x, Means m a ctx operand x ∧ v = -x
  | .sum args, v => ∃ terms values, sumTerms m (args.map (ctx, ·)) = .ok terms
      ∧ MeansEach m a terms values ∧ v = values.sum
  | .sumOver body gens, v =>
    ∃ contexts terms values, bindings gens ctx = ⟨contexts, none⟩
      ∧ sumTerms m (contexts.map (·, body)) = .ok terms
      ∧ MeansEach m a terms values ∧ v = values.sum
  | .aggregate op args, v => ∃ operands values, operandTrees m ctx op args = .ok operands
      ∧ MeansEach m a (operands.map (ctx, ·)) values ∧ op.Joins values v
  | .ifThenElse cond yes no, v =>
    ∃ c x y, Means m a ctx cond c ∧ Means m a ctx yes x
      ∧ Means m a ctx no y ∧ Chooses c x y v
  | .abs operand, v => ∃ x, Means m a ctx operand x ∧ v = |x|
  | .piecewise operand breakpoints slopes offsets, v => ∃ x, Means m a ctx operand x
      ∧ ∃ g ∈ Segment.ofData breakpoints slopes offsets, g.Gives x v
  | _, _ => False

theorem means_open_iff (isOpen : e.isConstant = false) :
    Means m a ctx e v ↔ NodeMeans m a ctx e v := by
  constructor
  · intro means
    cases means with
    | constant closed => exact absurd (closed.symm.trans isOpen) (by decide)
    | ref given => exact ⟨_, given, rfl⟩
    | arith _ left right => exact ⟨_, _, left, right, rfl⟩
    | negate _ operand => exact ⟨_, operand, rfl⟩
    | sum _ listed values => exact ⟨_, _, listed, values, rfl⟩
    | sumOver _ bound listed values => exact ⟨_, _, _, bound, listed, values, rfl⟩
    | aggregate _ listed values joins => exact ⟨_, _, listed, values, joins⟩
    | ifThenElse _ cond yes no chooses =>
      exact ⟨_, _, _, cond, yes, no, chooses⟩
    | abs _ operand => exact ⟨_, operand, rfl⟩
    | piecewise _ operand segment gives => exact ⟨_, operand, _, segment, gives⟩
  · intro means
    match e, v, isOpen, means with
    | .ref .., _, _, ⟨_, given, rfl⟩ => exact .ref given
    | .arith .., _, isOpen, ⟨_, _, left, right, rfl⟩ => exact .arith isOpen left right
    | .negate _, _, isOpen, ⟨_, operand, rfl⟩ => exact .negate isOpen operand
    | .sum _, _, isOpen, ⟨_, _, listed, values, rfl⟩ => exact .sum isOpen listed values
    | .sumOver .., _, isOpen, ⟨_, _, _, bound, listed, values, rfl⟩ =>
      exact .sumOver isOpen bound listed values
    | .aggregate .., _, isOpen, ⟨_, _, listed, values, joins⟩ =>
      exact .aggregate isOpen listed values joins
    | .ifThenElse .., _, isOpen, ⟨_, _, _, cond, yes, no, chooses⟩ =>
      exact .ifThenElse isOpen cond yes no chooses
    | .abs _, _, isOpen, ⟨_, operand, rfl⟩ => exact .abs isOpen operand
    | .piecewise .., _, isOpen, ⟨_, operand, _, segment, gives⟩ =>
      exact .piecewise isOpen operand segment gives

theorem means_ref_iff {name : Value} :
    Means m a ctx (.ref name indices) v ↔ NodeMeans m a ctx (.ref name indices) v :=
  means_open_iff (by rw [isConstant_eq]; rfl)

end Rules

/-! ## Uniqueness -/

section Unique

variable {m : Model} {a : Assignment}

theorem Aggregate.Joins.unique {values : List ℚ} {w : ℚ} (first : op.Joins values v)
    (second : op.Joins values w) : v = w := by
  cases op with
  | max => exact le_antisymm (second.2 v first.1) (first.2 w second.1)
  | min => exact le_antisymm (first.2 w second.1) (second.2 v first.1)
  | and =>
    rcases first.2 with ⟨rfl, ones⟩ | ⟨rfl, zero⟩ <;>
      rcases second.2 with ⟨rfl, ones'⟩ | ⟨rfl, zero'⟩
    · rfl
    · exact absurd (ones 0 zero') (by norm_num)
    · exact absurd (ones' 0 zero) (by norm_num)
    · rfl
  | or =>
    rcases first.2 with ⟨rfl, one⟩ | ⟨rfl, zeros⟩ <;>
      rcases second.2 with ⟨rfl, one'⟩ | ⟨rfl, zeros'⟩
    · rfl
    · exact absurd (zeros' 1 one) (by norm_num)
    · exact absurd (zeros 1 one') (by norm_num)
    · rfl

theorem Chooses.unique {c x y w : ℚ} (first : Chooses c x y v) (second : Chooses c x y w) :
    v = w := by
  rcases first with ⟨isOne, rfl⟩ | ⟨isZero, rfl⟩ <;>
    rcases second with ⟨isOne', rfl⟩ | ⟨isZero', rfl⟩
  · rfl
  · exact absurd (isOne.symm.trans isZero') (by norm_num)
  · exact absurd (isZero.symm.trans isOne') (by norm_num)
  · rfl

theorem Expr.isConstant_piecewise {breakpoints slopes offsets : List Value}
    (constant : operand.isConstant = true) :
    (piecewise operand breakpoints slopes offsets).isConstant = true := by
  rw [isConstant_eq]
  simp [isOpen, children, constant]

mutual

/-- A tree whose piecewise linear functions are taken of constants means one value at most. -/
theorem Means.unique {ctx : Context} {e : Expr} {v : ℚ} :
    Means m a ctx e v → e.Exact True → ∀ {w : ℚ}, Means m a ctx e w → v = w
  | .constant closed evaluated number, _, w, means => by
    obtain ⟨value, evaluated', number'⟩ := (means_constant_iff closed).mp means
    obtain rfl := Except.ok.inj (evaluated.symm.trans evaluated')
    exact Option.some.inj (number.symm.trans number')
  | .ref given, _, w, means => by
    obtain ⟨key, given', rfl⟩ := means_ref_iff.mp means
    rw [Except.ok.inj (given.symm.trans given')]
  | .arith isOpen left right, exact, w, means => by
    obtain ⟨x, y, left', right', rfl⟩ := (means_open_iff isOpen).mp means
    rw [left.unique exact.2.1 left', right.unique exact.2.2 right']
  | .negate isOpen operand, exact, w, means => by
    obtain ⟨x, operand', rfl⟩ := (means_open_iff isOpen).mp means
    rw [operand.unique exact operand']
  | .sum isOpen listed values, exact, w, means => by
    obtain ⟨terms, values', listed', means', rfl⟩ := (means_open_iff isOpen).mp means
    obtain rfl := Except.ok.inj (listed.symm.trans listed')
    rw [values.unique ?_ means']
    intro term mem
    obtain ⟨pair, known, -, origin⟩ := sumTerms_instances listed term mem
    obtain ⟨arg, argument, rfl⟩ := mem_map.mp known
    exact origin.exact True (exactTrees_iff.mp exact arg argument)
  | .sumOver isOpen bound listed values, exact, w, means => by
    obtain ⟨contexts, terms, values', bound', listed', means', rfl⟩ :=
      (means_open_iff isOpen).mp means
    rw [bound, Listing.mk.injEq] at bound'
    obtain rfl := bound'.1
    obtain rfl := Except.ok.inj (listed.symm.trans listed')
    rw [values.unique ?_ means']
    intro term mem
    obtain ⟨pair, known, -, origin⟩ := sumTerms_instances listed term mem
    obtain ⟨inner, -, rfl⟩ := mem_map.mp known
    exact origin.exact True exact.1
  | .aggregate isOpen listed values joins, exact, w, means => by
    obtain ⟨operands, values', listed', means', joins'⟩ := (means_open_iff isOpen).mp means
    obtain rfl := Except.ok.inj (listed.symm.trans listed')
    refine joins.unique ?_
    rw [values.unique ?_ means']
    · exact joins'
    · intro term mem
      obtain ⟨t, known, rfl⟩ := mem_map.mp mem
      obtain ⟨arg, argument, origin⟩ := operandTrees_instances listed t known
      exact origin.exact True (exactTrees_iff.mp exact arg argument)
  | .ifThenElse isOpen cond yes no chooses, exact, w, means => by
    obtain ⟨c, x, y, cond', yes', no', chooses'⟩ :=
      (means_open_iff isOpen).mp means
    rw [← cond.unique exact.1 cond', ← yes.unique exact.2.1 yes',
      ← no.unique exact.2.2 no'] at chooses'
    exact chooses.unique chooses'
  | .abs isOpen operand, exact, w, means => by
    obtain ⟨x, operand', rfl⟩ := (means_open_iff isOpen).mp means
    rw [operand.unique exact.2 operand']
  | .piecewise isOpen _ _ _, exact, w, means => by
    exact absurd ((isConstant_piecewise (exact.2.1 trivial)).symm.trans isOpen) (by decide)

theorem MeansEach.unique {terms : List (Context × Expr)} {values : List ℚ} :
    MeansEach m a terms values → (∀ term ∈ terms, term.2.Exact True) →
      ∀ {others : List ℚ}, MeansEach m a terms others → values = others
  | .nil, _, others, means => by
    cases means
    rfl
  | .cons here later, exact, others, means => by
    rw [forall_mem_cons] at exact
    cases means with
    | cons here' later' => rw [here.unique exact.1 here', later.unique exact.2 later']

end

end Unique

end LinearProgram
