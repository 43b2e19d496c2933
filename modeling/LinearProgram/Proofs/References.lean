import LinearProgram.LpText
import LinearProgram.Proofs.Conservation

/-!
# Built models refer to declared instances only

In every model that statements lead to (`Session.sound`), rows and objective are over declared
instances, and the two sides of a row differ by more than a constant. The model remembers what a
statement declared (`registers_statement`).
-/

namespace LinearProgram

open List Assembly Compilation

variable {cfg : Config} {m m₁ m₂ : Model} {s s' : Store} {ctx : Context} {p : Polynomial}
  {desc label : Value} {gens : List GeneratorItem} {r : Option Constraint} {α : Type}

/-! ## Single steps -/

/-- Rows and objective are over declared instances, and every row says something. -/
structure Model.Sound (m : Model) : Prop where
  rows : ∀ c ∈ m.constraints, c.Grounded m
  objective : ∀ o, m.objective = some o → o.polynomial.Over m.Knows

/-- What a step of a statement does to a model. -/
structure Model.Follows (cfg : Config) (m m' : Model) : Prop where
  ready : m'.Ready cfg
  knows : ∀ key, m.Knows key → m'.Knows key
  sound : m.Sound → m'.Sound

namespace Model.Follows

theorem refl (ready : m.Ready cfg) : m.Follows cfg m := ⟨ready, fun _ => id, id⟩

theorem trans (first : m.Follows cfg m₁) (second : m₁.Follows cfg m₂) :
    m.Follows cfg m₂ :=
  ⟨second.ready, fun key known => second.knows key (first.knows key known),
    fun sound => second.sound (first.sound sound)⟩

/-- New columns and rows, where the rows are grounded. -/
theorem of_adds {columns : List Variable} {rows : List Constraint} (ready : m₁.Ready cfg)
    (adds : m.Adds columns rows m₁) (grounded : ∀ c ∈ rows, c.Grounded m₁) :
    m.Follows cfg m₁ := by
  refine ⟨ready, fun key => adds.knows, fun sound => ⟨fun c mem => ?_, fun o isObjective => ?_⟩⟩
  · rw [adds.constraints] at mem
    rcases mem_append.mp mem with old | new
    · exact (sound.rows c old).mono fun key => adds.knows
    · exact grounded c new
  · rw [adds.objective] at isObjective
    exact (sound.objective o isObjective).mono fun key => adds.knows

end Model.Follows

theorem Model.Extends.follows {ps : List Polynomial} (grown : m.Extends cfg ps m₁) :
    m.Follows cfg m₁ := by
  obtain ⟨expansions, adds, proper⟩ := grown.conservative
  refine .of_adds grown.ready adds fun c mem => ?_
  obtain ⟨x, isExpansion, inside⟩ := mem_flatMap.mp mem
  exact ((proper x isExpansion).rows c inside).2.1

theorem Grows.ok {x : Assembly α} {good : α → Model → Prop} {a : α} (grows : Grows cfg x s good)
    (ran : x.run s = (.ok a, s')) : good a s'.model := by
  unfold Grows at grows
  rw [ran] at grows
  exact grows

section Steps

variable (ready : s.model.Ready cfg)
include ready

theorem follows_compile {e : Expr} (ran : (compile cfg e ctx).run s = (.ok p, s')) :
    s.model.Follows cfg s'.model ∧ p.Over s'.model.Knows := by
  have grown := (compile_grows ready e ctx).ok ran
  exact ⟨grown.follows, grown.known p mem_cons_self⟩

theorem follows_declareVariable {family : Value} {index : List Value} {kind lower upper : Value}
    {v : Variable}
    (ran : (declareVariable cfg family index kind lower upper desc false).run s
      = (.ok v, s')) : s.model.Follows cfg s'.model := by
  obtain ⟨coherent, registered⟩ := (Keeps.of_composed (Model.registered_invariant cfg)
    (.declareVariable fun _ _ _ _ => trivial)).ok ran ready.coherent ready.registered
  obtain ⟨-, -, -, -, -, user, model⟩ := declareVariable_ok ran
  have adds := Model.Adds.addVariable s.model v
  rw [← model] at adds
  have reached : ∀ u, s.model.Reached cfg u → s'.model.Reached cfg u := by
    rw [model]
    exact fun u => id
  refine .of_adds ⟨coherent, registered, adds.numbered ready.numbered (fun u _ => reached u)
    (fun u _ => reached u) ?_ (by simp)⟩ adds (by simp)
  intro w new auxiliary
  rw [mem_singleton.mp new, user] at auxiliary
  cases auxiliary

theorem follows_registerDeclaration {signature : Value} {label : String} {u : Unit}
    (ran : (registerDeclaration signature label).run s = (.ok u, s')) :
    s.model.Follows cfg s'.model := by
  obtain ⟨coherent, registered⟩ := (Keeps.registerDeclaration
    (Model.registered_invariant cfg)).ok ran ready.coherent ready.registered
  have model := registerDeclaration_ok ran
  rw [model] at coherent registered ⊢
  exact ⟨⟨coherent, registered, ready.numbered.columns, ready.numbered.rows⟩, fun _ => id,
    fun sound => ⟨fun c mem => (sound.rows c mem).mono fun _ => id, sound.objective⟩⟩

/-- A row of a statement is named by its description, or else by a counter. -/
theorem follows_addConstraint {lhs rhs : Polynomial} {rel : Relation}
    (knownLeft : lhs.Over s.model.Knows) (knownRight : rhs.Over s.model.Knows)
    (ran : (addConstraint cfg label lhs rel rhs label).run s = (.ok r, s')) :
    s.model.Follows cfg s'.model := by
  obtain ⟨coherent, registered⟩ := (Keeps.addConstraint
    (Model.registered_invariant cfg)).ok ran ready.coherent ready.registered
  obtain ⟨difference, minus, ⟨-, -, model⟩ | ⟨nonconstant, c, stored⟩⟩ :=
    addConstraint_cases ran
  · rw [model]
    exact .refl ready
  · obtain ⟨counters, model⟩ := stored.model
    have adds := Model.Adds.addConstraint s.model c counters
    rw [← model] at adds
    have reached : ∀ u, s.model.Reached cfg u → s'.model.Reached cfg u :=
      fun u known => Nat.le_trans known (stored.counters _)
    refine .of_adds ⟨coherent, registered, adds.numbered ready.numbered (fun u _ => reached u)
      (fun u _ => reached u) (by simp) ?_⟩ adds ?_
    · intro c' new unnamed
      rw [mem_singleton.mp new] at unnamed ⊢
      rcases stored.rawName with given | ⟨-, auto⟩
      · rw [stored.description, given] at unnamed
        cases unnamed
      · exact .inl auto
    · intro c' mem
      rw [mem_singleton.mp mem]
      refine ⟨?_, ?_, difference, ?_, nonconstant⟩
      · rw [stored.lhs]
        exact knownLeft.mono fun key => adds.knows
      · rw [stored.rhs]
        exact knownRight.mono fun key => adds.knows
      · rw [Constraint.difference, stored.lhs, stored.rhs]
        exact minus

theorem follows_setObjective {objective result : Objective} {replace : Bool}
    (known : objective.polynomial.Over s.model.Knows)
    (ran : (Assembly.setObjective objective replace).run s = (.ok result, s')) :
    s.model.Follows cfg s'.model := by
  obtain ⟨coherent, registered⟩ := (Keeps.setObjective
    (Model.registered_invariant cfg)).ok ran ready.coherent ready.registered
  obtain ⟨-, model⟩ := setObjective_ok ran
  rw [model] at coherent registered ⊢
  refine ⟨⟨coherent, registered, ready.numbered.columns, ready.numbered.rows⟩, fun _ => id,
    fun sound => ⟨fun c mem => (sound.rows c mem).mono fun _ => id, ?_⟩⟩
  rintro o ⟨⟩
  exact known

end Steps

/-! ## Statements

A statement declares one constraint for each of its bindings, and the model remembers these
occurrences. -/

/-- A constraint statement under one binding: the comparison, and the values that the generators
bind. -/
structure Occurrence where
  op : Comparison
  left : Expr
  right : Expr
  index : List Value

namespace Occurrence

def tree (i : Occurrence) : Expr := .compare i.op i.left i.right

/-- The signature that is remembered, if the tree can be written. -/
def signature? (i : Occurrence) : Option Value :=
  i.tree.text?.map fun shown => .tuple [.str shown, .str (Value.tupleQuoted i.index)]

end Occurrence

/-- The occurrence of a constraint statement under a binding. -/
def occurrence (op : Comparison) (left right : Expr) (gens : List GeneratorItem)
    (ctx : Context) : Occurrence := ⟨op, left, right, indexValues gens ctx⟩

/-- The occurrences of a statement, one for each binding. -/
def Statement.occurrences (params : Parameters) : Statement → List Occurrence
  | .constraintFamily op left right gens _ =>
    (bindings gens { parameters := params }).items.map (occurrence op left right gens)
  | _ => []

/-- What steps do to a model that put occurrences on record. -/
structure Model.Registers (cfg : Config) (m : Model) (added : List Occurrence) (m' : Model) :
    Prop where
  follows : m.Follows cfg m'
  declarations : m'.declarations.map some = m.declarations.map some ++ added.map (·.signature?)

namespace Model.Registers

theorem of_same (follows : m.Follows cfg m₁) (same : m₁.declarations = m.declarations) :
    m.Registers cfg [] m₁ := ⟨follows, by simp [same]⟩

theorem trans {added added' : List Occurrence} (first : m.Registers cfg added m₁)
    (second : m₁.Registers cfg added' m₂) : m.Registers cfg (added ++ added') m₂ := by
  refine ⟨first.follows.trans second.follows, ?_⟩
  rw [second.declarations, first.declarations, map_append, append_assoc]

end Model.Registers

/-- Steps over the bindings of a statement, by induction on the bindings. -/
theorem registers_foldlM {σ : Type} {f : σ → α → Assembly σ} {added : α → List Occurrence}
    (step : ∀ b a c (s s' : Store), s.model.Ready cfg → (f b a).run s = (.ok c, s') →
      s.model.Registers cfg (added a) s'.model) {l : List α} {b c : σ}
    (ready : s.model.Ready cfg) (ran : (l.foldlM f b).run s = (.ok c, s')) :
    s.model.Registers cfg (l.flatMap added) s'.model := by
  induction l generalizing b s with
  | nil =>
    obtain ⟨-, rfl⟩ := run_pure_ok ran
    exact .of_same (.refl ready) rfl
  | cons a _ ih =>
    rw [foldlM_cons] at ran
    obtain ⟨d, s₁, first, ran⟩ := run_bind_ok.mp ran
    have after := step b a d s s₁ ready first
    exact after.trans (ih after.follows.ready ran)

section Steps

variable (ready : s.model.Ready cfg)
include ready

theorem declarations_compile {e : Expr} (ran : (compile cfg e ctx).run s = (.ok p, s')) :
    s'.model.declarations = s.model.declarations := by
  obtain ⟨_, adds, -⟩ := ((compile_grows ready e ctx).ok ran).conservative
  exact adds.declarations

omit ready in
theorem declarations_addConstraint {lhs rhs : Polynomial} {rel : Relation}
    (ran : (addConstraint cfg label lhs rel rhs label).run s = (.ok r, s')) :
    s'.model.declarations = s.model.declarations := by
  obtain ⟨_, -, ⟨-, -, model⟩ | ⟨-, c, stored⟩⟩ := addConstraint_cases ran
  · rw [model]
  · obtain ⟨counters, model⟩ := stored.model
    rw [model]
    rfl

theorem registers_addConstraintInstance {op : Comparison} {left right : Expr}
    (ran : (addConstraintInstance cfg op left right gens desc ctx).run s
      = (.ok r, s')) :
    s.model.Registers cfg [occurrence op left right gens ctx] s'.model := by
  obtain ⟨shown, isShown, ran⟩ := run_lift_bind_ok.mp ran
  obtain ⟨_, s₂, registered, ran⟩ := run_bind_ok.mp ran
  obtain ⟨lhs, s₃, compiled, ran⟩ := run_bind_ok.mp ran
  obtain ⟨rhs, s₄, compiled', ran⟩ := run_bind_ok.mp ran
  obtain ⟨label, -, ran⟩ := run_lift_bind_ok.mp ran
  obtain ⟨rel, -, ran⟩ := run_lift_bind_ok.mp ran
  have first := follows_registerDeclaration ready registered
  obtain ⟨second, knownLeft⟩ := follows_compile first.ready compiled
  obtain ⟨third, knownRight⟩ := follows_compile second.ready compiled'
  have last := follows_addConstraint third.ready (knownLeft.mono third.knows) knownRight ran
  refine ⟨((first.trans second).trans third).trans last, ?_⟩
  rw [declarations_addConstraint ran, declarations_compile second.ready compiled',
    declarations_compile first.ready compiled, registerDeclaration_ok registered]
  have written : (Expr.compare op left right).text? = some shown := by
    cases found : (Expr.compare op left right).text? with
    | none =>
      rw [found] at isShown
      cases isShown
    | some =>
      rw [found] at isShown
      cases isShown
      rfl
  simp [Model.addDeclaration, Occurrence.signature?, Occurrence.tree, occurrence, written]

end Steps

theorem registers_addVariables {params : Parameters} {name : Value} {kind : Value}
    {lower upper : Datum} {declared : List Variable} (ready : s.model.Ready cfg)
    (ran : (addVariables cfg params name gens kind lower upper desc).run s
      = (.ok declared, s')) : s.model.Registers cfg [] s'.model := by
  obtain ⟨_, s₁, folded, ran⟩ := run_bind_ok.mp ran
  cases ran
  obtain ⟨before, after, entry, inner, exit⟩ := run_transaction_ok folded
  obtain ⟨-, inner⟩ := foldListing_ok inner
  rw [show s₁.model = after.model from exit, ← entry]
  rw [← entry] at ready
  have none : [] = (bindings gens { parameters := params }).items.flatMap
      fun _ : Context => ([] : List Occurrence) := by simp
  rw [none]
  refine registers_foldlM (fun done ctx r t t' ready ran => ?_) ready inner
  obtain ⟨low, -, ran⟩ := run_lift_bind_ok.mp ran
  obtain ⟨high, -, ran⟩ := run_lift_bind_ok.mp ran
  obtain ⟨text, -, ran⟩ := run_lift_bind_ok.mp ran
  obtain ⟨v, t₄, added, ran⟩ := run_bind_ok.mp ran
  obtain ⟨-, rfl⟩ := run_pure_ok ran
  obtain ⟨-, -, -, -, -, -, model⟩ := declareVariable_ok added
  exact .of_same (follows_declareVariable ready added) (by rw [model]; rfl)

theorem registers_declareNext {op : Comparison} {left right : Expr} {contexts : List Context}
    {done rows : List Constraint} (ready : s.model.Ready cfg)
    (ran : (contexts.foldlM (declareNext cfg op left right gens desc) done).run s
      = (.ok rows, s')) :
    s.model.Registers cfg (contexts.map (occurrence op left right gens)) s'.model := by
  rw [map_eq_flatMap]
  refine registers_foldlM (fun rows ctx r t t' ready ran => ?_) ready ran
  obtain ⟨c, t₁, declared, ran⟩ := run_bind_ok.mp ran
  have same : t₁ = t' := by
    split at ran <;> exact (run_pure_ok ran).2
  subst same
  exact registers_addConstraintInstance ready declared

/-- A statement that succeeds puts its occurrences on record, and nothing else. -/
theorem registers_statement {params : Parameters} {replace : Bool} {stmt : Statement}
    {added : Added} (ready : s.model.Ready cfg)
    (ran : (applyStatement cfg params replace stmt).run s = (.ok added, s')) :
    s.model.Registers cfg (stmt.occurrences params) s'.model := by
  cases stmt with
  | variableFamily =>
    obtain ⟨declared, s₁, ran', done⟩ := run_bind_ok.mp ran
    obtain ⟨-, rfl⟩ := run_pure_ok done
    exact registers_addVariables ready ran'
  | constraintFamily =>
    obtain ⟨declared, s₁, ran', done⟩ := run_bind_ok.mp ran
    obtain ⟨-, rfl⟩ := run_pure_ok done
    obtain ⟨before, after, entry, inner, exit⟩ := run_transaction_ok ran'
    obtain ⟨-, inner⟩ := foldListing_ok inner
    rw [exit, ← entry]
    rw [← entry] at ready
    exact registers_declareNext ready inner
  | objective =>
    obtain ⟨set, s₁, ran', done⟩ := run_bind_ok.mp ran
    obtain ⟨-, rfl⟩ := run_pure_ok done
    obtain ⟨before, after, entry, inner, exit⟩ := run_transaction_ok ran'
    rw [exit, ← entry]
    rw [← entry] at ready
    obtain ⟨p, t₁, compiled, inner⟩ := run_bind_ok.mp inner
    obtain ⟨way, -, inner⟩ := run_lift_bind_ok.mp inner
    obtain ⟨first, known⟩ := follows_compile ready compiled
    refine .of_same (first.trans (follows_setObjective first.ready known inner)) ?_
    rw [(setObjective_ok inner).2, ← declarations_compile ready compiled]

/-- The stores that statements lead to one after the other, whether they succeed or fail. -/
inductive Compilation.Session (cfg : Config) : Store → Prop
  | start (name : Value) : Session cfg { model := { name } }
  | statement {s : Store} (before : Session cfg s) (params : Parameters) (replace : Bool)
      (stmt : Statement) :
      Session cfg ((applyStatement cfg params replace stmt).run s).2

/-- A block of statements, up to the first that fails. -/
theorem Compilation.Session.block (before : Session cfg s) (params : Parameters) (replace : Bool)
    (statements : List Statement) :
    Session cfg ((applyStatements cfg params replace statements).run s).2 := by
  induction statements generalizing s with
  | nil => exact before
  | cons stmt _ ih =>
    have after := before.statement params replace stmt
    rw [applyStatements, List.forM, run_bind, run_bind]
    rcases ran : (applyStatement cfg params replace stmt).run s with ⟨e | added, s'⟩
    · rw [ran] at after
      exact after
    · rw [ran] at after
      exact ih after

theorem Model.ready_empty (cfg : Config) (name : Value) : ({ name } : Model).Ready cfg :=
  ⟨⟨by simp, by simp, by simp⟩, registered_empty cfg name, ⟨by simp, by simp⟩⟩

/-- Statements, whether they succeed or fail, leave a sound model. -/
theorem Compilation.Session.sound (session : Session cfg s) :
    s.model.Ready cfg ∧ s.transaction = none ∧ s.model.Sound := by
  induction session with
  | start name => exact ⟨Model.ready_empty cfg name, rfl, by simp, by simp⟩
  | @statement s before params replace stmt ih =>
    obtain ⟨ready, closed, sound⟩ := ih
    have recorded := Keeps.of_composed (invariant_true cfg _) .applyStatement s ready.coherent
      (x := applyStatement cfg params replace stmt)
    rcases ran : (applyStatement cfg params replace stmt).run s with ⟨e | added, s'⟩
    · -- a failed statement changes nothing
      obtain ⟨model, closed'⟩ := model_of_statement_error ready.coherent closed ran
      rw [model]
      exact ⟨ready, closed', sound⟩
    · have follows := (registers_statement ready ran).follows
      exact ⟨follows.ready, by simpa [ran] using recorded.closed closed, follows.sound sound⟩

/-! ## The text of sound rows -/

namespace LpText

variable {rendering : Config} {p : Polynomial} {key : VarKey} {x : Number}

/-- Only an integer that is too large has no text. -/
theorem failsOnly_number : FailsOnly (· = .broken .overflow) (number rendering x) := by
  have converted : FailsOnly (· = .broken .overflow) (orOverflow x.toFloat?) := by
    cases x.toFloat? <;> simp [orOverflow]
  unfold number
  refine failsOnly_ite.mpr ⟨fun _ => trivial, fun _ => failsOnly_ite.mpr ⟨fun _ => trivial,
    fun _ => failsOnly_bind.mpr ⟨converted, fun f _ => ?_⟩⟩⟩
  split <;> trivial

theorem failsOnly_term (known : m.Knows key) :
    FailsOnly (· = .broken .overflow) (term rendering m key x) := by
  obtain ⟨v, declared⟩ := Option.isSome_iff_exists.mp known
  simp [term, declared, failsOnly_number]

/-- The terms of a polynomial over declared instances all have a text, up to numbers that are too
large. -/
theorem failsOnly_terms (known : p.Over m.Knows) :
    FailsOnly (· = .broken .overflow) (terms rendering m p) := by
  have later : ∀ l : List (VarKey × Number), (∀ t ∈ l, m.Knows t.1) →
      FailsOnly (· = .broken .overflow) (laterTerms rendering m l) := by
    intro l known
    induction l with
    | nil => trivial
    | cons _ _ ih =>
      rw [forall_mem_cons] at known
      simp [laterTerms, failsOnly_term known.1, ih known.2]
  unfold terms
  split
  · trivial
  case h_2 first rest shape =>
    rw [Polynomial.Over, shape, forall_mem_cons] at known
    simp [failsOnly_term known.1, later rest known.2]

theorem intercalate_ne_zero {first : String} {others : List String} (different : first ≠ "0") :
    " ".intercalate (first :: others) ≠ "0" := by
  intro same
  have chars := congrArg String.toList same
  rw [String.toList_intercalate] at chars
  cases others with
  | nil => exact different (String.toList_inj.mp (by simpa using chars))
  | cons second =>
    -- a second term is set off by a blank
    rw [map_cons, map_cons, intercalate_cons_cons] at chars
    have blank : ' ' ∈ "0".toList := by
      rw [← chars]
      simp
    exact absurd blank (by decide)

theorem term_ne_zero {text : String} (registered : m.Registered cfg)
    (shown : term rendering m key x = .ok text) : text ≠ "0" := by
  unfold term at shown
  split at shown
  · exact absurd shown (breakDown_ne_ok _ _)
  case h_2 v declared =>
    split at shown
    · obtain ⟨limit, -, name⟩ := registered.named v (mem_of_find?_eq_some declared)
      cases shown
      intro zero
      have start := (Name.isName_ofKey limit v.key).start '0'
      rw [← name, zero] at start
      exact absurd (start (by decide)) (by decide)
    · obtain ⟨digits, -, done⟩ := bind_eq_ok.mp shown
      cases done
      intro zero
      have blank : ' ' ∈ "0".toList := by
        rw [← zero]
        simp
      exact absurd blank (by decide)

/-- A polynomial with terms is not written as a lone zero. -/
theorem terms_ne_zero (registered : m.Registered cfg) (nonconstant : p.isConstant = false) :
    terms rendering m p ≠ .ok "0" := by
  intro zero
  unfold terms at zero
  split at zero
  case h_1 none =>
    rw [Polynomial.isConstant, none] at nonconstant
    cases nonconstant
  case h_2 first rest shape =>
    obtain ⟨shown, isShown, zero⟩ := bind_eq_ok.mp zero
    obtain ⟨others, -, zero⟩ := bind_eq_ok.mp zero
    refine intercalate_ne_zero ?_ (Except.ok.inj zero)
    split
    · intro same
      have chars := congrArg String.toList same
      simp at chars
    · exact term_ne_zero registered isShown

end LpText

/-- A sum has no terms that are zero, so its linear part has the same terms. -/
theorem Polynomial.linearPart_terms_of_sub {q d : Polynomial} (minus : p.sub q = .ok d) :
    d.linearPart.terms = d.terms := by
  obtain ⟨q', -, added⟩ := bind_eq_ok.mp minus
  obtain ⟨terms, -, added⟩ := bind_eq_ok.mp added
  obtain ⟨x, -, done⟩ := bind_eq_ok.mp added
  cases done
  simp [Polynomial.linearPart, Polynomial.ofTerms, filter_filter]

theorem Constraint.Grounded.normalized {c : Constraint} (grounded : c.Grounded m) :
    ∃ linear rhs, c.normalized = .ok (linear, rhs) ∧ linear.isConstant = false
      ∧ linear.Over m.Knows := by
  obtain ⟨d, isDifference, nonconstant⟩ := grounded.difference
  refine ⟨d.linearPart, d.constant.neg, ?_, ?_, ?_⟩
  · rw [Constraint.normalized, isDifference]
    rfl
  · rw [Polynomial.isConstant, Polynomial.linearPart_terms_of_sub isDifference]
    exact nonconstant
  · exact Polynomial.over_ofTerms (grounded.lhs.sub grounded.rhs isDifference) _

/-- **Referential integrity.** After any statements, whether they succeeded or failed, every
instance in a stored row or in the objective is declared, and every stored row has a term once its
variables stand on the left. So no name is missing from the text of a row or of the objective, and
no row is written as a lone zero. -/
theorem session_references_declared (session : Session cfg s) (rendering : Config) :
    (∀ c ∈ s.model.constraints,
      (∀ term ∈ c.lhs.terms ++ c.rhs.terms, (s.model.declared? term.1).isSome = true)
        ∧ ∃ linear rhs, c.normalized = .ok (linear, rhs) ∧ linear.terms ≠ []
          ∧ LpText.terms rendering s.model linear ≠ breakDown .missingKey
          ∧ LpText.terms rendering s.model linear ≠ .ok "0")
      ∧ ∀ o, s.model.objective = some o →
        (∀ term ∈ o.polynomial.terms, (s.model.declared? term.1).isSome = true)
          ∧ LpText.terms rendering s.model o.polynomial ≠ breakDown .missingKey := by
  obtain ⟨ready, -, sound⟩ := session.sound
  have found : ∀ {p : Polynomial}, p.Over s.model.Knows →
      LpText.terms rendering s.model p ≠ breakDown .missingKey := by
    intro p known failed
    cases (LpText.failsOnly_terms known).of_error failed
  refine ⟨fun c member => ?_, fun o isObjective => ?_⟩
  · have grounded := sound.rows c member
    obtain ⟨linear, rhs, normalized, nonconstant, known⟩ := grounded.normalized
    refine ⟨fun term inside => ?_, linear, rhs, normalized, ?_, found known,
      LpText.terms_ne_zero ready.registered nonconstant⟩
    · rcases List.mem_append.mp inside with onLeft | onRight
      · exact grounded.lhs term onLeft
      · exact grounded.rhs term onRight
    · exact List.isEmpty_eq_false_iff.mp nonconstant
  · have known := sound.objective o isObjective
    exact ⟨known, found known⟩

def balance : List Statement :=
  let stock : Expr := .ref (.str "stock") []
  [.variableFamily (.str "stock") [] (.str "integer") (.data (.int (-3))) (.data (.int 3)) .none,
    .constraintFamily .le (.ref (.str "sales") []) stock [] .none,
    .constraintFamily .le (.abs stock) (.literal (.int 2)) [] .none,
    .objective stock (.str "min")]

def balanceStore : Store :=
  balance.foldl (fun s stmt => ((applyStatement {} {} true stmt).run s).2)
    { model := { name := .none } }

theorem balanceStore_session : Session {} balanceStore :=
  (((Session.start .none).statement _ _ _).statement _ _ _ |>.statement _ _ _).statement _ _ _

theorem balance_references_declared :
    balanceStore.model.constraints.map (·.name) = ["aux_abs_1_pos", "aux_abs_1_neg", "c00000000"]
      ∧ balanceStore.model.objective.isSome = true
      ∧ ∀ c ∈ balanceStore.model.constraints, ∀ term ∈ c.lhs.terms ++ c.rhs.terms,
        (balanceStore.model.declared? term.1).isSome = true := by
  refine ⟨by decide +kernel, by decide +kernel, fun c member => ?_⟩
  exact ((session_references_declared balanceStore_session {}).1 c member).1

end LinearProgram
