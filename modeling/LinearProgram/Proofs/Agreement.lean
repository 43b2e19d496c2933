import LinearProgram.Proofs.Successes
import LinearProgram.Proofs.Suited

/-!
# Evaluations that look alike

Trees that have the same value, or both fail, with the same error where errors are seen
(`EvaluateAlike`): node by node, and binding by binding for sums.
-/

namespace LinearProgram

variable {exact : Bool} {names : List String}

/-! ## Contexts -/

/-- Two tables that have the same values, or none, under some names. -/
def Scope.AlikeOn (names : List String) (p q : Scope) : Prop :=
  ∀ name ∈ names, p.get? name = q.get? name

theorem Scope.AlikeOn.mono {names' : List String} {p q : Scope} (alike : AlikeOn names p q)
    (fewer : ∀ name ∈ names', name ∈ names) : AlikeOn names' p q :=
  fun name mem => alike name (fewer name mem)

/-- Two contexts that have the same values, or none, under some names. -/
structure Context.AlikeOn (names : List String) (c c' : Context) : Prop where
  bindings : Scope.AlikeOn names c.bindings c'.bindings
  parameters : Scope.AlikeOn names c.parameters.table c'.parameters.table
  host : c.parameters.host = c'.parameters.host

theorem Context.AlikeOn.bind_right {c : Context} {name : String} (unmentioned : name ∉ names)
    (value : Value) : AlikeOn names c (c.bind name value) := by
  refine ⟨fun other mem => ?_, fun _ _ => rfl, rfl⟩
  show c.bindings.get? other = (c.bindings.put name value).get? other
  rw [Scope.get?_put, if_neg]
  rintro rfl
  exact unmentioned mem

/-- Contexts under which trees with some bare names look alike. An error may list all bound names,
so where it is seen these are the same. -/
structure Context.Agrees (exact : Bool) (names : List String) (c c' : Context) : Prop where
  alike : AlikeOn names c c'
  bound : exact = true → c.bindings = c'.bindings

namespace Context.Agrees

variable {names names' : List String} {c c' : Context}

theorem refl (c : Context) : Agrees exact names c c :=
  ⟨⟨fun _ _ => rfl, fun _ _ => rfl, rfl⟩, fun _ => rfl⟩

theorem mono (agrees : Agrees exact names c c') (fewer : ∀ name ∈ names', name ∈ names) :
    Agrees exact names' c c' :=
  ⟨⟨agrees.alike.bindings.mono fewer, agrees.alike.parameters.mono fewer, agrees.alike.host⟩,
    agrees.bound⟩

theorem bind (agrees : Agrees exact names c c') (name : String) (value : Value) :
    Agrees exact names (c.bind name value) (c'.bind name value) := by
  refine ⟨⟨fun other mem => ?_, agrees.alike.parameters, agrees.alike.host⟩,
    fun isExact => ?_⟩
  · show (c.bindings.put name value).get? other = (c'.bindings.put name value).get? other
    rw [Scope.get?_put, Scope.get?_put, agrees.alike.bindings other mem]
  · exact congrArg (·.put name value) (agrees.bound isExact)

theorem resolve (agrees : Agrees exact names c c') {name : String} (mem : name ∈ names) :
    seen exact (c.resolve name) = seen exact (c'.resolve name) := by
  unfold Context.resolve
  rw [agrees.alike.bindings name mem, agrees.alike.parameters name mem]
  split
  · rfl
  · split
    · rfl
    · cases exact with
      | true => rw [agrees.bound rfl]
      | false => rfl

end Context.Agrees

/-! ## Parts of an evaluation -/

/-- Trees whose evaluation looks alike under their contexts. An error may show the tree, so where it
is seen the tree is the same. -/
structure EvaluateAlike (exact : Bool) (c c' : Context) (t t' : Expr) : Prop where
  value : seen exact (t.evaluate c) = seen exact (t'.evaluate c')
  source : exact = true → t = t'

section Parts

variable {c c' : Context} {t t' : Expr} {name name' : String}

theorem requireNumber_alike (source : exact = true → t = t') (v : Value) :
    seen exact (requireNumber t v) = seen exact (requireNumber t' v) := by
  cases exact with
  | true => rw [source rfl]
  | false => cases v <;> rfl

theorem requireTruth_alike (source : exact = true → t = t') (v : Value) :
    seen exact (requireTruth t v) = seen exact (requireTruth t' v) := by
  cases exact with
  | true => rw [source rfl]
  | false =>
    unfold requireTruth
    split
    · rfl
    · split
      · rfl
      · split <;> rfl
    · rfl

theorem applyArithmetic_alike (source : exact = true → t = t') (op : Arithmetic) (x y : Number) :
    seen exact (applyArithmetic t op x y) = seen exact (applyArithmetic t' op x y) := by
  cases exact with
  | true => rw [source rfl]
  | false =>
    cases op with
    | div =>
      simp only [applyArithmetic]
      split <;> rfl
    | _ => rfl

theorem filterVerdict_alike (same : EvaluateAlike exact c c' t t') :
    seen exact (filterVerdict t (t.evaluate c))
      = seen exact (filterVerdict t' (t'.evaluate c')) := by
  cases exact with
  | true =>
    have value := same.value
    rw [seen_true, seen_true] at value
    rw [value, same.source rfl]
  | false =>
    have failed : ∀ s e, seen false (filterVerdict s (.error e))
        = .error (.broken .unsupported) := by
      intro s e
      cases e with
      | broken => rfl
      | refused =>
        simp only [filterVerdict]
        split <;> rfl
    rcases cases_of_seen same.value with ⟨v, ok, ok'⟩ | ⟨e, e', error, error', -⟩
    · rw [ok, ok']
      unfold filterVerdict
      split <;> first | rfl | contradiction
    · rw [error, error', failed, failed]

theorem domainItems_alike (named : exact = true → name = name') (domain : Value) :
    seen exact (domainItems name domain) = seen exact (domainItems name' domain) := by
  cases exact with
  | true => rw [named rfl]
  | false =>
    cases domain with
    | foreign _ core =>
      cases core <;> first | rfl | (simp only [domainItems]; split <;> rfl)
    | _ => rfl

theorem domainValues_alike (named : exact = true → name = name')
    (constant : t.isConstant = t'.isConstant) (same : EvaluateAlike exact c c' t t') :
    seen exact ((Datum.tree t).domainValues name c)
      = seen exact ((Datum.tree t').domainValues name' c') := by
  unfold Datum.domainValues
  rw [← constant]
  split
  · exact seen_bind_congr same.value fun v _ => domainItems_alike named v
  · cases exact with
    | true => rw [named rfl, same.source rfl]
    | false => rfl

end Parts

/-! ## Bindings -/

section Bindings

variable {c c' : Context} {R : Context → Context → Prop} {rest rest' : List GeneratorItem}

theorem bindings_filter_alike {cond cond' : Expr} (same : EvaluateAlike exact c c' cond cond')
    (more : Listing.Alike exact R (bindings rest c) (bindings rest' c')) :
    Listing.Alike exact R (bindings (.filter cond :: rest) c)
      (bindings (.filter cond' :: rest') c') := by
  rw [bindings, bindings]
  rcases cases_of_seen (filterVerdict_alike same) with ⟨b, ok, ok'⟩ | ⟨e, e', error, error', seen⟩
  · rw [ok, ok']
    cases b with
    | true => exact more
    | false => exact ⟨.nil, rfl⟩
  · rw [error, error']
    exact ⟨.nil, congrArg some seen⟩

theorem bindings_generator_alike {name name' : String} {domain domain' : Datum}
    (values : seen exact (domain.domainValues name c) = seen exact (domain'.domainValues name' c'))
    (more : ∀ v, Listing.Alike exact R (bindings rest (c.bind name v))
      (bindings rest' (c'.bind name' v))) :
    Listing.Alike exact R (bindings (.generator name domain :: rest) c)
      (bindings (.generator name' domain' :: rest') c') := by
  rw [bindings, bindings]
  rcases cases_of_seen values with ⟨list, ok, ok'⟩ | ⟨e, e', error, error', seen⟩
  · rw [ok, ok']
    exact .chain fun v _ => more v
  · rw [error, error']
    exact ⟨.nil, congrArg some seen⟩

/-- A tree that looks alike under all contexts that agree on its bare names. -/
def Expr.EvaluatesByNames (exact : Bool) (e : Expr) : Prop :=
  ∀ c c' : Context, Context.Agrees exact e.symbols c c' → EvaluateAlike exact c c' e e

/-- The bindings of generators under contexts that agree on some names agree on these again. -/
theorem bindings_alike {items : List GeneratorItem}
    (each : ∀ item ∈ items, ∀ e ∈ item.children, e.EvaluatesByNames exact
      ∧ ∀ symbol ∈ e.symbols, symbol ∈ names) (agrees : Context.Agrees exact names c c') :
    Listing.Alike exact (Context.Agrees exact names) (bindings items c) (bindings items c') := by
  induction items generalizing c c' with
  | nil => exact ⟨.cons agrees .nil, rfl⟩
  | cons item _ ih =>
    rw [List.forall_mem_cons] at each
    cases item with
    | filter cond =>
      obtain ⟨same, within⟩ := each.1 cond List.mem_cons_self
      exact bindings_filter_alike (same c c' (agrees.mono within)) (ih each.2 agrees)
    | generator name domain =>
      refine bindings_generator_alike ?_ fun v => ih each.2 (agrees.bind name v)
      cases domain with
      | data => rfl
      | tree e =>
        obtain ⟨same, within⟩ := each.1 e List.mem_cons_self
        exact domainValues_alike (fun _ => rfl) rfl (same c c' (agrees.mono within))

end Bindings

/-! ## Nodes -/

namespace Expr

/-- The value of a key: a bare name is a bound name or a text. -/
def keyValue (key : Expr) (dot : Bool) (ctx : Context) : Except Error Value :=
  match key with
  | wildcard => raise .wildcardKey
  | symbol name =>
    match if dot then none else ctx.bindings.get? name with
    | some value => pure value.normalize
    | none => pure (.str name)
  | _ => key.evaluate ctx

theorem evaluate_lookup (container key : Expr) (dot : Bool) (ctx : Context) :
    (lookup container key dot).evaluate ctx = (do
      let c ← container.evaluate ctx
      let k ← key.keyValue dot ctx
      c.lookup ctx.parameters.host k dot) := by
  cases key with
  | symbol name =>
    simp only [evaluate, keyValue]
    refine bind_congr fun value => ?_
    generalize (if dot = true then none else ctx.bindings.get? name) = found
    cases found <;> rfl
  | _ => rfl

end Expr

namespace EvaluateAlike

variable {c c' : Context} {t t' : Expr} {args args' : List Expr}

theorem number (same : EvaluateAlike exact c c' t t') (v : Value) :
    seen exact (requireNumber t v) = seen exact (requireNumber t' v) :=
  requireNumber_alike same.source v

theorem truth (same : EvaluateAlike exact c c' t t') (v : Value) :
    seen exact (requireTruth t v) = seen exact (requireTruth t' v) :=
  requireTruth_alike same.source v

theorem sources (related : List.Forall₂ (EvaluateAlike exact c c') args args')
    (isExact : exact = true) : args = args' :=
  List.forall₂_eq_eq_eq ▸ related.imp fun _ _ same => same.source isExact

theorem lookup {container container' key key' : Expr} {dot : Bool}
    (first : EvaluateAlike exact c c' container container')
    (second : seen exact (key.keyValue dot c) = seen exact (key'.keyValue dot c'))
    (source : exact = true → key = key') (host : c.parameters.host = c'.parameters.host) :
    EvaluateAlike exact c c' (.lookup container key dot) (.lookup container' key' dot) where
  value := by simp only [Expr.evaluate_lookup, seen_bind, first.value, second, host]
  source isExact := by rw [first.source isExact, source isExact]

section Operands

variable {l l' r r' : Expr}

theorem arith (op : Arithmetic) (left : EvaluateAlike exact c c' l l')
    (right : EvaluateAlike exact c c' r r') :
    EvaluateAlike exact c c' (.arith op l r) (.arith op l' r') := by
  have source : exact = true → Expr.arith op l r = .arith op l' r' := fun isExact => by
    rw [left.source isExact, right.source isExact]
  refine ⟨?_, source⟩
  simp only [Expr.evaluate, seen_bind, left.value, left.number, right.value, right.number,
    applyArithmetic_alike source]

theorem compare (op : Comparison) (left : EvaluateAlike exact c c' l l')
    (right : EvaluateAlike exact c c' r r') (host : c.parameters.host = c'.parameters.host) :
    EvaluateAlike exact c c' (.compare op l r) (.compare op l' r') where
  value := by simp only [Expr.evaluate, seen_bind, left.value, right.value, host]
  source isExact := by rw [left.source isExact, right.source isExact]

theorem range (start : EvaluateAlike exact c c' l l') (stop : EvaluateAlike exact c c' r r') :
    EvaluateAlike exact c c' (.range l r) (.range l' r') where
  value := by
    simp only [Expr.evaluate, seen_bind, start.value, start.number, stop.value, stop.number]
  source isExact := by rw [start.source isExact, stop.source isExact]

theorem negate (operand : EvaluateAlike exact c c' t t') :
    EvaluateAlike exact c c' (.negate t) (.negate t') where
  value := by simp only [Expr.evaluate, seen_bind, operand.value, operand.number]
  source isExact := by rw [operand.source isExact]

theorem abs (operand : EvaluateAlike exact c c' t t') :
    EvaluateAlike exact c c' (.abs t) (.abs t') where
  value := by simp only [Expr.evaluate, seen_bind, operand.value, operand.number]
  source isExact := by rw [operand.source isExact]

theorem piecewise (operand : EvaluateAlike exact c c' t t')
    (breakpoints slopes offsets : List Value) :
    EvaluateAlike exact c c' (.piecewise t breakpoints slopes offsets)
      (.piecewise t' breakpoints slopes offsets) where
  value := by simp only [Expr.evaluate, seen_bind, operand.value, operand.number]
  source isExact := by rw [operand.source isExact]

theorem ifThenElse (cond : EvaluateAlike exact c c' t t') (first : EvaluateAlike exact c c' l l')
    (second : EvaluateAlike exact c c' r r') :
    EvaluateAlike exact c c' (.ifThenElse t l r) (.ifThenElse t' l' r') where
  value := by
    simp only [Expr.evaluate, seen_bind, cond.value, cond.truth, apply_ite (seen exact),
      first.value, second.value]
  source isExact := by
    rw [cond.source isExact, first.source isExact, second.source isExact]

end Operands

theorem sum (related : List.Forall₂ (EvaluateAlike exact c c') args args') :
    EvaluateAlike exact c c' (.sum args) (.sum args') where
  value := by
    have total : ∀ x, seen exact (evaluateSum args c x) = seen exact (evaluateSum args' c' x) := by
      induction related with
      | nil => exact fun x => rfl
      | cons here _ ih =>
        intro x
        simp only [evaluateSum, seen_bind, here.value, here.number, ih]
    simp only [Expr.evaluate, seen_bind, total]
  source isExact := by rw [sources related isExact]

theorem aggregate (op : Aggregate) (related : List.Forall₂ (EvaluateAlike exact c c') args args') :
    EvaluateAlike exact c c' (.aggregate op args) (.aggregate op args') where
  value := by
    cases op with
    | max | min =>
      have numbers : seen exact (evaluateNumbers args c)
          = seen exact (evaluateNumbers args' c') := by
        induction related with
        | nil => rfl
        | cons here _ ih => simp only [evaluateNumbers, seen_bind, here.value, here.number, ih]
      simp only [Expr.evaluate, seen_bind, numbers]
    | and =>
      have all : seen exact (evaluateAll args c) = seen exact (evaluateAll args' c') := by
        induction related with
        | nil => rfl
        | cons here _ ih =>
          simp only [evaluateAll, seen_bind, here.value, here.truth, apply_ite (seen exact), ih]
      simp only [Expr.evaluate, seen_bind, all]
    | or =>
      have any : seen exact (evaluateAny args c) = seen exact (evaluateAny args' c') := by
        induction related with
        | nil => rfl
        | cons here _ ih =>
          simp only [evaluateAny, seen_bind, here.value, here.truth, apply_ite (seen exact), ih]
      simp only [Expr.evaluate, seen_bind, any]
  source isExact := by rw [sources related isExact]

theorem sumOver {R : Context → Context → Prop} {body body' : Expr}
    {gens gens' : List GeneratorItem}
    (listed : Listing.Alike exact R (bindings gens c) (bindings gens' c'))
    (each : ∀ d d', R d d' → EvaluateAlike exact d d' body body')
    (source : exact = true → Expr.sumOver body gens = .sumOver body' gens') :
    EvaluateAlike exact c c' (.sumOver body gens) (.sumOver body' gens') := by
  refine ⟨?_, source⟩
  simp only [Expr.evaluate]
  refine seen_bind_congr (listed.foldM (fun total d d' related => ?_) _) fun total _ => rfl
  simp only [seen_bind, (each d d' related).value, (each d d' related).number]

end EvaluateAlike

end LinearProgram
