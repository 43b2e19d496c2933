import LinearProgram.Proofs.WildcardEnds

/-!
# How compilation ends

A step settles if, from every coherent model whose instances have keys, it ends with a given
property or in a failure that the faults explain, and leaves such a model behind (`Settles`).
-/

namespace LinearProgram

open List Assembly

variable {desc name : Value} {cause : Cause} {faults : Faults} {α : Type}

/-- A step that ends well from every coherent model whose instances have keys, and leaves such a
model behind. -/
def Settles (faults : Faults) {α : Type} (post : α → Prop) (x : Assembly α) : Prop :=
  ∀ s : Store, s.model.Coherent → s.model.Keyed →
    Ends post faults.Explain (x.run s).1 ∧ Recorded Model.Keyed s (x.run s).2

/-- Only instances with keys are declared. -/
theorem Model.keyed_invariant (cfg : Config) :
    Invariant cfg (fun _ => True) Model.Keyed where
  counters _ keyed := keyed
  column keyed accepted _ := forall_mem_append.mpr
    ⟨keyed, forall_mem_singleton.mpr accepted.legal⟩
  row keyed _ := keyed
  declaration _ keyed := keyed
  objective _ keyed := keyed

namespace Settles

variable {faults : Faults} {α β σ : Type} {post post' : α → Prop} {next : β → Prop} {x : Assembly α}
  {f : α → Assembly β}

theorem of_keeps (keeps : Keeps Model.Keyed x)
    (ends : ∀ s : Store, s.model.Coherent → s.model.Keyed → Ends post faults.Explain (x.run s).1) :
    Settles faults post x := fun s coherent keyed => ⟨ends s coherent keyed, keeps s coherent⟩

theorem pure {a : α} (holds : post a) : Settles faults post (pure a) :=
  of_keeps .pure fun _ _ _ => holds

theorem lift {result : Except Error α} (ends : Ends post faults.Explain result) :
    Settles faults post (liftM result) := of_keeps .lift fun _ _ _ => ends

theorem refuse (announced : cause.kind.compileName?.isSome = true)
    (worded : cause.message?.isSome = true ∨ faults.unsuited) :
    Settles faults post (refuse cause) := lift (Faults.ends_raise announced worded)

theorem refuse_of {e : Expr} (named : e.text?.isSome = true ∨ faults.unsuited)
    (announced : cause.kind.compileName?.isSome = true)
    (shows : ∀ text, e.text? = some text → cause.message?.isSome = true) :
    Settles faults post (Assembly.refuse cause) := lift (Faults.ends_raise_of named announced shows)

/-- The second step starts from the model that the first has left. -/
theorem bind (first : Settles faults post x)
    (rest : ∀ a, post a → Settles faults next (f a)) : Settles faults next (x >>= f) := by
  intro s coherent keyed
  have settled := first s coherent keyed
  rw [run_bind]
  rcases outcome : x.run s with ⟨e | a, s'⟩
  · rw [outcome] at settled
    exact settled
  · rw [outcome] at settled
    obtain ⟨holds, recorded⟩ := settled
    obtain ⟨ends, later⟩ := rest a holds s' recorded.coherent (recorded.kept keyed)
    exact ⟨ends, recorded.trans later⟩

theorem map {f : α → β} (settles : Settles faults (fun _ => True) x) :
    Settles faults (fun _ => True) (x >>= fun a => Pure.pure (f a)) :=
  settles.bind fun _ _ => pure trivial

theorem lift_bind {result : Except Error α} (first : Ends post faults.Explain result)
    (rest : ∀ a, post a → Settles faults next (f a)) :
    Settles faults next ((liftM result : Assembly α) >>= f) := (lift first).bind rest

theorem model_bind {f : Model → Assembly β}
    (rest : ∀ m : Model, m.Coherent → m.Keyed → Settles faults next (f m)) :
    Settles faults next (Assembly.model >>= f) := by
  intro s coherent keyed
  rw [run_bind]
  exact rest s.model coherent keyed s coherent keyed

theorem report_bind {records : List LogRecord} {f : Unit → Assembly β}
    (rest : Settles faults next (f ())) : Settles faults next (Assembly.report records >>= f) := by
  have reported : Settles faults (fun _ => True) (Assembly.report records) :=
    of_keeps .report fun _ _ _ => trivial
  exact reported.bind fun _ _ => rest

theorem ite {p : Prop} [Decidable p] {x y : Assembly α} (yes : p → Settles faults post x)
    (no : ¬ p → Settles faults post y) : Settles faults post (if p then x else y) := by
  split
  case isTrue holds => exact yes holds
  case isFalse fails => exact no fails

theorem foldlM {f : σ → α → Assembly σ} {l : List α} {kept : σ → Prop}
    (step : ∀ b, kept b → ∀ a ∈ l, Settles faults kept (f b a)) {b : σ} (start : kept b) :
    Settles faults kept (l.foldlM f b) := by
  induction l generalizing b with
  | nil => exact pure start
  | cons a _ ih =>
    rw [foldlM_cons]
    refine (step b start a mem_cons_self).bind fun c isKept => ?_
    exact ih (fun b isKept a mem => step b isKept a (mem_cons_of_mem _ mem)) isKept

theorem mapM {l : List α} (step : ∀ a ∈ l, Settles faults (fun _ => True) (f a)) :
    Settles faults (fun _ => True) (l.mapM f) := by
  induction l with
  | nil => exact pure trivial
  | cons a _ ih =>
    rw [forall_mem_cons] at step
    rw [mapM_cons]
    exact step.1.bind fun b _ => (ih step.2).map

theorem foldListing {f : σ → α → Assembly σ} {listing : Listing α}
    (listed : listing.Ends post faults.Explain)
    (step : ∀ b a, post a → Settles faults (fun _ => True) (f b a)) (b : σ) :
    Settles faults (fun _ => True) (foldListing listing f b) := by
  refine (foldlM (fun b _ a mem => step b a (listed.items a mem)) trivial).bind fun result _ => ?_
  split
  case h_1 e stopped => exact lift (listed.stop e stopped)
  case h_2 => exact pure trivial

theorem transaction (settles : Settles faults post x) : Settles faults post (transaction x) := by
  intro s coherent keyed
  refine ⟨?_, Recorded.transaction coherent fun t same => ?_⟩
  · obtain ⟨before, same, result⟩ := run_transaction_result x s
    rw [result]
    exact (settles before (same ▸ coherent) (same ▸ keyed)).1
  · exact (settles t (same ▸ coherent) (same ▸ keyed)).2

end Settles

/-! ## Declarations -/

/-- Failures of arithmetic need no excuse. -/
theorem Error.IsPlain.explain (e : Error) (isPlain : e.IsPlain) : faults.Explain e := by
  match e with
  | .refused cause => exact ⟨isPlain.1, .inl isPlain.2.1⟩
  | .broken .overflow => exact trivial

theorem Plain.ends {x : Except Error α} (plain : Plain x) :
    Ends (fun _ => True) faults.Explain x :=
  (plain.mono Error.IsPlain.explain).ends fun _ _ => trivial

theorem Model.Keyed.declared {m : Model} (keyed : m.Keyed) (coherent : m.Coherent) {family : String}
    {index : List Value} (known : index ∈ m.indexTuples family) :
    (m.declared? ⟨family, index⟩).isSome = true := by
  rw [Model.indexTuples] at known
  cases found : m.family? family with
  | none =>
    rw [found] at known
    cases known
  | some =>
    rw [found] at known
    obtain ⟨entry, first, rfl⟩ := Option.map_eq_some_iff.mp found
    obtain ⟨v, mem, key⟩ := coherent.tuples entry (mem_of_find?_eq_some first) index known
    have named := find?_some first
    rw [beq_iff_eq] at named
    subst named
    rw [Model.declared?, find?_isSome]
    exact ⟨v, mem, key ▸ VarKey.equal_self (keyed v mem)⟩

theorem Faults.allowsClashes : Composed.AllowsClashes faults.Explain := by
  intro cause isClash worded _
  refine ⟨worded, .inl ?_⟩
  rcases cause.clash?_isSome_iff.mp isClash with isKind | isKind <;> rw [isKind] <;> rfl

namespace Settles

section Declarations

variable {faults : Faults} {cfg : Config}
  (limited : cfg.maxNameLength.toInt?.isSome = true ∨ faults.unsuited)

theorem plain_bind {β : Type} {next : β → Prop} {result : Except Error α} {f : α → Assembly β}
    (plain : Plain result) (rest : ∀ a, Settles faults next (f a)) :
    Settles faults next ((liftM result : Assembly α) >>= f) :=
      lift_bind plain.ends fun a _ => rest a

include limited

theorem addVariable {key : VarKey} {kind : VariableKind} {lower upper : Option Number}
    {auxiliary : Bool} (isKey : key.isKey = true ∨ faults.unsuited) :
    Settles faults (fun _ => True)
      (addVariable cfg key kind lower upper desc auxiliary) := by
  have keyed := Model.keyed_invariant cfg
  refine of_keeps (.addVariable keyed fun _ _ _ _ _ => trivial) fun s coherent keyed => ?_
  obtain ⟨rest, shape, composed⟩ := Composed.addVariable_eq Faults.allowsClashes
    (Faults.ends_orUnsupported limited).failsOnly isKey
  rw [shape, run_bind, run_model]
  refine ((Composed.lift ?_).bind fun _ => composed s.model).failsOnly s
  exact Composed.failsOnly_checkFamily Faults.allowsClashes
    (.inl fun index known => keyed.declared coherent known)

theorem storeConstraint {lhs rhs : Polynomial} {rel : Relation}
    (isLabel : name.isLabel = true ∨ faults.unsuited) :
    Settles faults (fun _ => True)
      (storeConstraint cfg name lhs rhs rel desc) :=
  of_keeps (.storeConstraint (Model.keyed_invariant cfg)) fun s _ _ =>
    (Composed.storeConstraint Faults.allowsClashes (Faults.ends_orUnsupported limited).failsOnly
      isLabel).failsOnly s

theorem addConstraint {lhs rhs : Polynomial} {rel : Relation}
    (isLabel : name.isLabel = true ∨ faults.unsuited) :
    Settles faults (fun _ => True)
      (addConstraint cfg name lhs rel rhs desc) := by
  refine plain_bind (lhs.plain_sub rhs) fun difference => ite (fun _ => ?_) fun _ => ?_
  · exact ite (fun _ => report_bind (pure trivial)) fun _ => refuse rfl (.inl rfl)
  · exact (storeConstraint limited isLabel).map

theorem of_composed {α : Type} {x : Assembly α}
    (step : Linearizes cfg faults.Explain x) : Settles faults (fun _ => True) x := by
  have keyed := Model.keyed_invariant cfg
  induction step with
  | pure => exact pure trivial
  | lift fails => exact lift fails
  | model => exact of_keeps .model fun _ _ _ => trivial
  | report => exact of_keeps .report fun _ _ _ => trivial
  | atom isAtom =>
    cases isAtom with
    | nextIndex => exact of_keeps (.nextIndex keyed) fun _ _ _ => trivial
    | addVariable =>
      refine addVariable limited (.inl (Value.areKeys_iff.mpr ?_))
      exact forall_mem_map.mpr fun n _ => rfl
    | storeConstraint => exact storeConstraint limited (.inl rfl)
  | bind _ _ settles rest => exact settles.bind fun a _ => rest a
  | transaction _ settles => exact settles.transaction

/-- Linearizations settle for any operands. -/
theorem of_plain {α : Type} {x : Assembly α} (step : Linearizes cfg Error.IsPlain x) :
    Settles faults (fun _ => True) x := of_composed limited (step.mono Error.IsPlain.explain)

/-- Segments are made of numbers, and each has a slope and an intercept. -/
theorem piecewise {e : Polynomial} {breakpoints slopes offsets : List Value}
    (numeric : ∀ v ∈ breakpoints, faults.Numeric v) (steep : breakpoints.length = slopes.length + 1)
    (level : breakpoints.length = offsets.length + 1) :
    Settles faults (fun _ => True)
      (Linearization.piecewise cfg e breakpoints slopes offsets) := by
  refine of_composed limited (.piecewise Error.IsPlain.explain (fun v mem => ⟨?_, ?_⟩)
    (.inl steep) (.inl level))
  · have below := ordered_ends .less (numeric v mem) (Faults.numeric_number (.int 0))
    exact failsOnly_bind.mpr ⟨below.failsOnly, by simp⟩
  · have above := ordered_ends .greater (numeric v mem) (Faults.numeric_number (.int 0))
    exact failsOnly_bind.mpr ⟨above.failsOnly, by simp⟩

end Declarations

/-! ## Compilation -/

section Compilation

open Compilation

variable {faults : Faults} {cfg : Config} {ranks : Ranks} {ctx : Context} {e : Expr}
  (limited : cfg.maxNameLength.toInt?.isSome = true ∨ faults.unsuited)

theorem foldConstant (excused : e.Excused faults ranks) (constant : e.isConstant = true)
    (fits : ctx.Fits faults ranks) :
    Settles faults (fun _ => True) (liftM (e.foldConstant ctx)) :=
  lift ((e.evaluate_ends (excused.readable constant) fits).bind fun v _ _ =>
    (Polynomial.plain_ofValue v).ends)

theorem joinPolynomials (named : e.text?.isSome = true ∨ faults.unsuited) (op : Arithmetic)
    (p q : Polynomial) : Settles faults (fun _ => True) (liftM (joinPolynomials e op p q)) := by
  refine lift ?_
  cases op with
  | add => exact (p.plain_add q).ends
  | sub => exact (p.plain_sub q).ends
  | mul => exact (p.plain_mul q).ends
  | div =>
    unfold LinearProgram.joinPolynomials
    dsimp only
    split
    · exact Faults.ends_raise_of named rfl fun text isText => by simp [Cause.message?, isText]
    · exact (p.plain_div q).ends

theorem excused_pattern {pattern : Expr} (excused : e.Excused faults ranks)
    (found : e.pattern? = some pattern) : pattern.Excused faults ranks := by
  unfold Expr.pattern? at found
  split at found
  case h_1 op pattern =>
    cases found
    exact (excused.child rfl mem_cons_self).child rfl mem_cons_self
  case h_2 op arg _ =>
    split at found
    · cases found
      exact excused.child rfl mem_cons_self
    · cases found
  case h_3 => cases found

theorem operands {op : Aggregate} {args : List Expr}
    (excused : (Expr.aggregate op args).Excused faults ranks) (fits : ctx.Fits faults ranks) :
    Settles faults (fun trees => ∀ e ∈ trees, e.Excused faults ranks)
      (operands (.aggregate op args) args ctx) := by
  unfold Compilation.operands
  split
  case h_1 => exact pure fun e mem => excused.child rfl mem
  case h_2 pattern found =>
    refine model_bind fun m coherent keyed => ?_
    refine lift_bind (Wildcard.expand_ends coherent keyed fits (excused_pattern excused found))
      fun instances areExcused => ite (fun _ => ?_) fun _ => pure areExcused
    exact refuse_of excused.named rfl fun text isText => by simp [Cause.message?, isText]

/-- Subtrees that settle wherever they stand. -/
def Subtrees (faults : Faults) (compileTree : Compilation.Subtrees) : Prop :=
  ∀ ⦃ranks : Ranks⦄ ⦃ctx : Context⦄ ⦃e : Expr⦄, e.Excused faults ranks →
    ctx.Fits faults ranks → Settles faults (fun _ => True) (compileTree e ctx)

variable {compileTree : Compilation.Subtrees} (subtrees : Subtrees faults compileTree)
include subtrees

theorem sumTrees {trees : List Expr} (excused : ∀ e ∈ trees, e.Excused faults ranks)
    (fits : ctx.Fits faults ranks) :
    Settles faults (fun _ => True) (sumTrees compileTree trees ctx) := by
  refine foldlM (fun total _ e mem => ?_) trivial
  exact (subtrees (excused e mem) fits).bind fun p _ => lift (total.plain_add p).ends

theorem compileSummand (excused : e.Excused faults ranks) (fits : ctx.Fits faults ranks) :
    Settles faults (fun _ => True) (compileSummand compileTree e ctx) := by
  have settles : ∀ {body : Expr}, body.Excused faults ranks → Settles faults (fun _ => True) (do
      if body.hasWildcard then
        let instances ← Wildcard.expand (some (← Assembly.model)) ctx body
        Compilation.sumTrees compileTree instances ctx
      else compileTree body ctx) := by
    intro body isBody
    refine ite (fun _ => model_bind fun m coherent keyed => ?_) fun _ => subtrees isBody fits
    exact lift_bind (Wildcard.expand_ends coherent keyed fits isBody) fun instances areExcused =>
      sumTrees subtrees areExcused fits
  cases e with
  | each => exact settles (excused.child rfl mem_cons_self)
  | _ => exact settles excused

theorem compileCondition (excused : e.Excused faults ranks) (fits : ctx.Fits faults ranks) :
    Settles faults (fun _ => True) (compileCondition compileTree ctx e) := by
  have constant : Ends (fun _ => True) faults.Explain (constantCondition e ctx) := by
    unfold constantCondition
    split
    case isTrue constant =>
      refine (e.evaluate_ends (excused.readable constant) fits).bind fun v _ _ => ?_
      split <;> exact trivial
    case isFalse => exact trivial
  refine lift_bind constant fun value _ => ?_
  split
  · exact pure trivial
  · exact subtrees excused fits

include limited

theorem compileAggregate (op : Aggregate) {trees : List Expr}
    (excused : ∀ e ∈ trees, e.Excused faults ranks) (fits : ctx.Fits faults ranks) :
    Settles faults (fun _ => True) (compileAggregate cfg compileTree op trees ctx) := by
  have values := mapM fun e mem => subtrees (excused e mem) fits
  have conditions := mapM fun e mem => compileCondition subtrees (excused e mem) fits
  cases op with
  | max => exact values.bind fun ps _ => of_plain limited (.maximum ps)
  | min => exact values.bind fun ps _ => of_plain limited (.minimum ps)
  | and => exact conditions.bind fun ps _ => of_plain limited (.conjunction ps)
  | or => exact conditions.bind fun ps _ => of_plain limited (.disjunction ps)

theorem compileNode (excused : e.Excused faults ranks) (fits : ctx.Fits faults ranks) :
    Settles faults (fun _ => True) (compileNode cfg compileTree e ctx) := by
  have inside : e.binds = false → ∀ c ∈ e.children, c.Excused faults ranks :=
    fun plain c mem => excused.child plain mem
  have notCompiled : ∀ {cause : Cause}, cause.kind.compileName?.isSome = true →
      (∀ text, e.text? = some text → cause.message?.isSome = true) →
      Settles faults (fun _ : Polynomial => True) (Assembly.refuse cause) := refuse_of excused.named
  refine ite (fun constant => foldConstant excused constant fits) fun _ => ?_
  cases e with
  | sumOver =>
    refine foldListing (bindings_ends excused.items fits) (fun total inner fits' => ?_) _
    exact (compileSummand subtrees excused.body fits').bind fun p _ =>
      lift (total.plain_add p).ends
  | sum =>
    refine foldlM (fun total _ arg mem => ?_) trivial
    exact (compileSummand subtrees (inside rfl arg mem) fits).bind fun p _ =>
      lift (total.plain_add p).ends
  | abs operand =>
    exact (subtrees (inside rfl operand mem_cons_self) fits).bind fun p _ =>
      of_plain limited (.absolute p)
  | aggregate op =>
    exact (operands excused fits).bind fun trees areExcused =>
      compileAggregate limited subtrees op areExcused fits
  | ifThenElse _ yes no =>
    have parts := inside rfl
    simp only [Expr.children, forall_mem_cons] at parts
    refine (compileCondition subtrees parts.1 fits).bind fun c _ => ?_
    refine (subtrees parts.2.1 fits).bind fun p _ => ?_
    exact (subtrees parts.2.2.1 fits).bind fun q _ =>
      of_plain limited (.choice c p q)
  | piecewise operand breakpoints =>
    obtain ⟨steep, level, -⟩ := (Expr.allFormed_iff.mp excused.formed).1
    have numeric : ∀ v ∈ breakpoints, faults.Numeric v := fun v mem =>
      Expr.numeric_of_piecewise excused.formed excused.suited v
        (mem_append_left _ (mem_append_left _ mem))
    exact (subtrees (inside rfl operand mem_cons_self) fits).bind fun p _ =>
      piecewise limited numeric steep level
  | ref =>
    refine model_bind fun m _ _ => lift ?_
    exact (resolveReference_ends m excused fits).bind fun key _ _ => trivial
  | arith op left right =>
    have parts := inside rfl
    simp only [Expr.children, forall_mem_cons] at parts
    refine (subtrees parts.1 fits).bind fun p _ => ?_
    exact (subtrees parts.2.1 fits).bind fun q _ => joinPolynomials excused.named op p q
  | negate operand =>
    exact (subtrees (inside rfl operand mem_cons_self) fits).bind fun p _ =>
      lift p.plain_neg.ends
  | each | compare | wildcard | literal | symbol | lookup | range =>
    exact notCompiled rfl fun text isText => by simp [Cause.message?, isText]

omit subtrees

theorem compileWithin (limit : Nat) : Subtrees faults (compileWithin cfg limit) := by
  induction limit with
  | zero =>
    intro ranks ctx e excused _
    exact refuse_of excused.named rfl fun text isText => by simp [Cause.message?, isText]
  | succ limit ih => exact fun _ _ _ => compileNode limited ih

/-- **Compilation.** A tree with its faults is compiled, or fails as these explain. -/
theorem compile (excused : e.Excused faults ranks) (fits : ctx.Fits faults ranks) :
    Settles faults (fun _ => True) (compile cfg e ctx) :=
  compileWithin limited e.weight excused fits

end Compilation

end Settles

end LinearProgram
