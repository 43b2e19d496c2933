import LinearProgram.Proofs.Failures

/-!
# What steps are made of

`Composed` are the steps made of given atoms, of looks at the model and reports, of computations
with `safe` errors, and of sequences and transactions of these. Every operation is made of single
changes (`Changing`), every statement of operations (`Operating`), and compilation of drawn numbers,
numbered columns and named rows (`Linearizing`).
-/

namespace LinearProgram

open List Assembly Error

variable {e : Expr} {cfg : Config} {α β σ : Type}

/-- What a constraint can be called: nothing or a text. -/
def Value.isLabel : Value → Bool
  | none | str _ => true
  | _ => false

theorem Listing.failsOnly_any (listing : Listing α) : listing.FailsOnly fun _ => True :=
  ⟨fun _ _ => trivial, fun _ _ => trivial⟩

/-- Steps made of computations and of what `atoms` do to a store. -/
inductive Composed (atoms : (α : Type) → Assembly α → Prop) (safe : Error → Prop) :
    {α : Type} → Assembly α → Prop
  | pure {α : Type} (a : α) : Composed atoms safe (pure a : Assembly α)
  | lift {α : Type} {result : Except Error α} (fails : FailsOnly safe result) :
    Composed atoms safe (liftM result : Assembly α)
  | model : Composed atoms safe Assembly.model
  | report (records : List LogRecord) : Composed atoms safe (report records)
  | atom {α : Type} {x : Assembly α} (isAtom : atoms α x) : Composed atoms safe x
  | bind {α β : Type} {x : Assembly α} {f : α → Assembly β} (first : Composed atoms safe x)
      (rest : ∀ a, Composed atoms safe (f a)) : Composed atoms safe (x >>= f)
  | transaction {α : Type} {x : Assembly α} (step : Composed atoms safe x) :
      Composed atoms safe (transaction x)

/-- Single changes. -/
inductive Changing : (α : Type) → Assembly α → Prop
  | nextIndex (counter : String) : Changing Nat (nextIndex counter)
  | change (f : Model → Model) (undo : Undo) : Changing Unit (change f undo)

/-- What linearizations do to a store. -/
inductive Linearizing (cfg : Config) : (α : Type) → Assembly α → Prop
  | nextIndex (counter : String) : Linearizing cfg Nat (nextIndex counter)
  | addVariable (family : String) (index : List Nat) (kind : VariableKind)
      (lower upper : Option Number) : Linearizing cfg Variable
        (addVariable cfg ⟨family, index.map fun (n : Nat) => .int n⟩ kind lower upper .none true)
  | storeConstraint (name : String) (lhs rhs : Polynomial) (rel : Relation) :
      Linearizing cfg Constraint (storeConstraint cfg (.str name) lhs rhs rel .none)

/-- The operations, if they add only `allowed` columns. -/
inductive Operating (cfg : Config) (allowed : Variable → Prop) :
    (α : Type) → Assembly α → Prop
  | nextIndex (counter : String) : Operating cfg allowed Nat (nextIndex counter)
  | addVariable {key : VarKey} {kind : VariableKind} {lower upper : Option Number}
      {desc : Value} {auxiliary : Bool}
      (passes : ∀ v : Variable, v.key = key → v.kind = kind → v.lower = lower → v.upper = upper →
        allowed v) : Operating cfg allowed Variable
          (addVariable cfg key kind lower upper desc auxiliary)
  | storeConstraint {name : Value} {lhs rhs : Polynomial} {rel : Relation}
      {desc : Value} : Operating cfg allowed Constraint
        (storeConstraint cfg name lhs rhs rel desc)
  | registerDeclaration {signature : Value} {label : String} :
      Operating cfg allowed Unit (registerDeclaration signature label)
  | setObjective {objective : Objective} {replace : Bool} :
      Operating cfg allowed Objective (setObjective objective replace)

/-- Steps of linearizations. -/
abbrev Linearizes (cfg : Config) (safe : Error → Prop) (x : Assembly α) : Prop :=
  Composed (Linearizing cfg) safe x

/-- Steps made of operations. -/
abbrev Operates (cfg : Config) (allowed : Variable → Prop) (x : Assembly α) : Prop :=
  Composed (Operating cfg allowed) (fun _ => True) x

namespace Composed

section Combinations

variable {atoms atoms' : (α : Type) → Assembly α → Prop} {safe safe' : Error → Prop}
  {x : Assembly α} {result : Except Error α} {f : σ → α → Assembly σ}

/-- Atoms can be composed in turn. -/
theorem refine (step : Composed atoms safe x) (weaker : ∀ e, safe e → safe' e)
    (parts : ∀ {α : Type} {x : Assembly α}, atoms α x → Composed atoms' safe' x) :
    Composed atoms' safe' x := by
  induction step with
  | pure a => exact pure a
  | lift fails => exact lift (fails.mono weaker)
  | model => exact model
  | report records => exact report records
  | atom isAtom => exact parts isAtom
  | bind _ _ first rest => exact first.bind rest
  | transaction _ step => exact step.transaction

theorem mono (weaker : ∀ e, safe e → safe' e) (step : Composed atoms safe x) :
    Composed atoms safe' x := step.refine weaker atom

theorem compute : Composed atoms (fun _ => True) (liftM result : Assembly α) :=
  lift (gives_any result)

/-- Only what follows a success needs a look. -/
theorem compute_bind {f : α → Assembly β}
    (rest : ∀ a, result = .ok a → Composed atoms (fun _ => True) (f a)) :
    Composed atoms (fun _ => True) ((liftM result : Assembly α) >>= f) := by
  cases result with
  | error e =>
    have failed : FailsOnly (fun _ => True) (.error e : Except Error β) := trivial
    exact lift failed
  | ok a => exact rest a rfl

theorem ite {p : Prop} [Decidable p] {y : Assembly α} (yes : Composed atoms safe x)
    (no : Composed atoms safe y) : Composed atoms safe (if p then x else y) := by
  split
  · exact yes
  · exact no

theorem when {p : Prop} [Decidable p] {x : Assembly PUnit} {rest : PUnit → Assembly α}
    (first : p → Composed atoms safe x) (later : ∀ u, Composed atoms safe (rest u)) :
    Composed atoms safe (if p then x >>= rest else rest ⟨⟩) := by
  split
  case isTrue holds => exact (first holds).bind later
  case isFalse => exact later ⟨⟩

theorem foldlM (step : ∀ b a, Composed atoms safe (f b a)) (l : List α) (b : σ) :
    Composed atoms safe (l.foldlM f b) := by
  induction l generalizing b with
  | nil => exact pure b
  | cons a _ ih =>
    rw [foldlM_cons]
    exact (step b a).bind ih

theorem mapM {f : α → Assembly β} (step : ∀ a, Composed atoms safe (f a)) (l : List α) :
    Composed atoms safe (l.mapM f) := by
  induction l with
  | nil => exact pure []
  | cons a _ ih =>
    rw [mapM_cons]
    exact (step a).bind fun b => ih.bind fun bs => pure _

theorem forM {f : α → Assembly PUnit} {l : List α}
    (step : ∀ a ∈ l, Composed atoms safe (f a)) : Composed atoms safe (l.forM f) := by
  induction l with
  | nil => exact pure _
  | cons _ _ ih =>
    rw [forall_mem_cons] at step
    exact step.1.bind fun _ => ih step.2

theorem stop {listing : Listing α} (stops : listing.FailsOnly safe) (result : σ) :
    Composed atoms safe (match listing.stop with
      | some e => throw e
      | none => Pure.pure result : Assembly σ) := by
  split
  case h_1 e stopped => exact lift (stops.stop e stopped)
  case h_2 => exact pure result

theorem foldListing (step : ∀ b a, Composed atoms safe (f b a)) {listing : Listing α}
    (stops : listing.FailsOnly safe) (b : σ) :
    Composed atoms safe (foldListing listing f b) :=
  (foldlM step listing.items b).bind (stop stops)

theorem addConstraint {name : Value} {lhs rhs : Polynomial} {rel : Relation}
    {desc : Value} (plain : ∀ e, IsPlain e → safe e)
    (stored : Composed atoms safe (storeConstraint cfg name lhs rhs rel desc)) :
    Composed atoms safe (addConstraint cfg name lhs rel rhs desc) := by
  refine ((lift (lhs.plain_sub rhs)).mono plain).bind fun difference => ite (ite ?_ ?_) ?_
  · exact (report _).bind fun _ => pure _
  · exact lift (FailsOnly.mono (plain_raise ⟨rfl, rfl, nofun, nofun⟩) plain)
  · exact stored.bind fun c => pure _

/-- A step made of single changes fails only where it computes. -/
theorem failsOnly (step : Composed Changing safe x) (s : Store) : FailsOnly safe (x.run s).1 := by
  induction step generalizing s with
  | pure | model | report => exact trivial
  | lift fails => exact fails
  | atom isAtom =>
    cases isAtom with
    | nextIndex | change => exact trivial
  | @bind _ _ x f _ _ first rest =>
    have ends := first s
    rw [run_bind]
    rcases outcome : x.run s with ⟨e | a, s'⟩
    · rw [outcome] at ends
      exact ends
    · exact rest a s'
  | @transaction _ x _ step =>
    obtain ⟨before, -, result⟩ := run_transaction_result x s
    rw [result]
    exact step before

end Combinations

/-! ## Operations

The only operation that refuses a repetition is the one that puts a constraint on record. -/

section Operations

/-- A clash with what a model has is safe if it is announced and not a repetition. -/
def AllowsClashes (safe : Error → Prop) : Prop :=
  ∀ cause : Cause, cause.clash?.isSome = true → cause.message?.isSome = true →
    (Error.refused cause).isRepeat = false → safe (.refused cause)

variable {key : VarKey} {kind : VariableKind} {lower upper : Option Number} {auxiliary : Bool}
  {desc name : Value} {lhs rhs : Polynomial} {rel : Relation} {x : Assembly α}
  {allowed : Variable → Prop} {safe : Error → Prop}

theorem allowsClashes_noRepeat : AllowsClashes (·.isRepeat = false) := fun _ _ _ => id

section

variable (clashes : AllowsClashes safe)
include clashes

theorem raise_clash {cause : Cause} (isClash : cause.clash?.isSome = true)
    (worded : cause.message?.isSome = true) (once : (Error.refused cause).isRepeat = false) :
    FailsOnly safe (raise cause : Except Error α) := by
  refine Ends.raise (fun _ => clashes cause isClash worded once) fun wordless => ?_
  rw [wordless] at worded
  cases worded

/-- A family that has tuples has the instance of its first one. -/
theorem failsOnly_checkFamily {m : Model}
    (declared : (∀ index ∈ m.indexTuples key.family,
      (m.declared? ⟨key.family, index⟩).isSome = true) ∨ safe (.broken .missingKey)) :
    FailsOnly safe (checkFamily m key kind) := by
  unfold checkFamily
  split
  case h_1 => exact trivial
  case h_2 first rest known =>
    split
    · exact raise_clash clashes rfl rfl rfl
    · split
      case h_1 =>
        split
        · exact trivial
        · exact raise_clash clashes rfl rfl rfl
      case h_2 missing =>
        refine declared.resolve_left fun declared => ?_
        have isSome := declared first (known ▸ mem_cons_self)
        rw [missing] at isSome
        cases isSome

variable (limited : FailsOnly safe cfg.nameLimit)
include limited

/-- Only the first check asks for more than a key. -/
theorem addVariable_eq (legal : key.isKey = true ∨ safe (.broken .unsupported)) :
    ∃ rest : Model → Assembly Variable,
      addVariable cfg key kind lower upper desc auxiliary
          = (Assembly.model >>= fun m => liftM (checkFamily m key kind) >>= fun _ => rest m)
        ∧ ∀ m, Composed Changing safe (rest m) := by
  refine ⟨_, rfl, fun m => when (fun illegal => lift (legal.resolve_left ?_)) fun _ => ?_⟩
  · simpa using illegal
  refine when (fun _ => lift (raise_clash clashes rfl rfl rfl)) fun _ => ?_
  refine (lift limited).bind fun limit => (report _).bind fun _ => ?_
  dsimp only
  split
  · exact lift (raise_clash clashes rfl rfl rfl)
  · exact (atom (.change _ _)).bind fun _ => when (fun _ => report _) fun _ => pure _

theorem storeConstraint (isLabel : name.isLabel = true ∨ safe (.broken .unsupported)) :
    Composed Changing safe (storeConstraint cfg name lhs rhs rel desc) := by
  have numbered : ∀ fuel, Composed Changing safe (nextConstraintId fuel) := by
    intro fuel
    induction fuel with
    | zero => exact (atom (.nextIndex _)).bind fun _ => pure _
    | succ _ ih => exact (atom (.nextIndex _)).bind fun _ => model.bind fun m => ite ih (pure _)
  have named : Composed Changing safe (constraintName name) := by
    cases name with
    | none => exact model.bind fun m => numbered _
    | str => exact pure _
    | _ => exact lift (isLabel.resolve_left nofun)
  refine transaction (named.bind fun rawName => (lift limited).bind fun limit => ?_)
  refine (report _).bind fun _ => when (fun _ => lift (raise_clash clashes rfl rfl rfl)) fun _ => ?_
  refine model.bind fun m => ?_
  split
  · exact ite (lift (raise_clash clashes rfl rfl rfl)) (lift (raise_clash clashes rfl rfl rfl))
  · exact (atom (.change _ _)).bind fun _ => pure _

end

theorem registerDeclaration {signature : Value} {label : String}
    (isKey : signature.isKey = true ∨ safe (.broken .unsupported))
    (repeated : FailsOnly safe (raise (.repeatedConstraint label) : Except Error PUnit)) :
    Composed Changing safe (registerDeclaration signature label) := by
  refine transaction (when (fun illegal => lift (isKey.resolve_left ?_)) fun _ => ?_)
  · simpa using illegal
  · exact model.bind fun _ => when (fun _ => lift repeated) fun _ => atom (.change _ _)

theorem setObjective {objective : Objective} {replace : Bool}
    (second : FailsOnly safe (raise .secondObjective : Except Error PUnit)) :
    Composed Changing safe (setObjective objective replace) := by
  refine transaction (model.bind fun m => ?_)
  dsimp only
  split
  · exact when (fun _ => lift second) fun _ => (report _).bind fun _ =>
      (atom (.change _ _)).bind fun _ => pure _
  · exact (atom (.change _ _)).bind fun _ => pure _

theorem storeConstraint_noRepeat : Composed Changing (·.isRepeat = false)
    (Assembly.storeConstraint cfg name lhs rhs rel desc) :=
  storeConstraint allowsClashes_noRepeat
    ((clashFree_nameLimit cfg).mono isRepeat_of_clash) (.inr rfl)

theorem addVariable_noRepeat : Composed Changing (·.isRepeat = false)
    (addVariable cfg key kind lower upper desc auxiliary) := by
  obtain ⟨rest, shape, composed⟩ := addVariable_eq allowsClashes_noRepeat
    ((clashFree_nameLimit cfg).mono isRepeat_of_clash) (.inr rfl)
  rw [shape]
  refine model.bind fun m => (lift ?_).bind fun _ => composed m
  exact failsOnly_checkFamily allowsClashes_noRepeat (.inr rfl)

theorem of_linearizing (step : Linearizing cfg α x) :
    Composed Changing (·.isRepeat = false) x := by
  cases step with
  | nextIndex counter => exact atom (.nextIndex counter)
  | addVariable => exact addVariable_noRepeat
  | storeConstraint => exact storeConstraint_noRepeat

theorem of_operating (step : Operating cfg allowed α x) :
    Composed Changing (fun _ => True) x := by
  cases step with
  | nextIndex counter => exact atom (.nextIndex counter)
  | addVariable => exact addVariable_noRepeat.mono fun _ _ => trivial
  | storeConstraint => exact storeConstraint_noRepeat.mono fun _ _ => trivial
  | registerDeclaration => exact registerDeclaration (.inr trivial) (gives_any _)
  | setObjective => exact setObjective (gives_any _)

theorem linearizing_operating (step : Linearizing cfg α x) :
    Operates cfg (fun _ => True) x := by
  cases step with
  | nextIndex counter => exact atom (.nextIndex counter)
  | addVariable => exact atom (.addVariable fun _ _ _ _ _ => trivial)
  | storeConstraint => exact atom .storeConstraint

theorem declareVariable {family kind lower upper : Value} {index : List Value}
    (passes : ∀ v : Variable, Bound.ofValue lower = .ok v.lower →
      Bound.ofValue upper = .ok v.upper →
      Bound.check v.key.text v.kind v.lower v.upper = .ok () → allowed v) :
    Operates cfg allowed
      (declareVariable cfg family index kind lower upper desc auxiliary) := by
  refine transaction (compute_bind fun kind _ => compute_bind fun low given => ?_)
  refine compute_bind fun high given' => compute_bind fun _ checked => ?_
  split
  case h_1 family =>
    refine atom (.addVariable ?_)
    rintro v key rfl rfl rfl
    exact passes v given given' (by rw [key]; exact checked)
  case h_2 => exact compute

end Operations

/-! ## Linearizations -/

section Linearizations

open Linearization

theorem plain_bind {result : Except Error α} (plain : Plain result) {f : α → Assembly β}
    (rest : ∀ a, Linearizes cfg IsPlain (f a)) :
    Linearizes cfg IsPlain ((liftM result : Assembly α) >>= f) := (lift plain).bind rest

theorem refuse_plain {cause : Cause} (plain : (Error.refused cause).IsPlain) :
    Linearizes cfg IsPlain (Assembly.refuse cause : Assembly α) := lift (plain_raise plain)

theorem nextFamily (operation : String) : Linearizes cfg IsPlain (nextFamily cfg operation) :=
  (atom (.nextIndex _)).bind fun _ => pure _

theorem introduce (family : String) (index : List Nat) (kind : VariableKind)
    (lower upper : Option Number) :
    Linearizes cfg IsPlain (introduce cfg family index kind lower upper) := by
  refine transaction (plain_bind (plain_checkGiven lower) fun lower => ?_)
  refine plain_bind (plain_checkGiven upper) fun upper => ?_
  refine plain_bind (Bound.plain_check _ kind lower upper) fun _ => ?_
  exact (atom (.addVariable family index kind lower upper)).bind fun v => pure _

theorem declareRows (family : String) (n : Nat) {rows : List (Except Error Row)}
    (plain : PlainRows rows) : Linearizes cfg IsPlain (declareRows cfg family n rows) :=
  forM fun row mem => plain_bind (plain row mem) fun _ =>
    (addConstraint (fun _ => id) (atom (.storeConstraint ..))).bind fun _ => pure _

theorem introduceSelectors (family : String) (n count : Nat) :
    Linearizes cfg IsPlain (introduceSelectors cfg family n count) :=
  mapM (fun k => introduce _ [n, k + 1] .binary none none) _

theorem absolute (e : Polynomial) : Linearizes cfg IsPlain (absolute cfg e) := by
  refine ite (pure _) (model.bind fun m => plain_bind (m.plain_boundsOf e) fun bounds => ?_)
  refine ite (pure _) (ite (lift e.plain_neg) ((nextFamily "abs").bind fun use => ?_))
  refine (introduce use.1 [use.2] .continuous (some (.int 0)) none).bind fun a => ?_
  exact (declareRows _ _ (plainRows_absolute a e)).bind fun _ => pure a

theorem selection {label : String} {better : Number → Number → Number}
    {rows : Number → Number → Polynomial → Choice → List (Except Error Row)}
    (plain : ∀ low high z c, PlainRows (rows low high z c)) (operands : List Polynomial) :
    Linearizes cfg IsPlain (selection cfg operands label better rows) := by
  unfold Linearization.selection
  split
  · exact refuse_plain ⟨rfl, rfl, nofun, nofun⟩
  · exact pure _
  · refine ite (pure _) (model.bind fun m => ?_)
    refine (mapM (fun e => lift (m.plain_finiteBoundsOf e label)) operands).bind fun ranges => ?_
    refine (nextFamily label).bind fun use => (introduce _ _ _ _ _).bind fun z => ?_
    refine (introduceSelectors _ _ _).bind fun ys => ?_
    exact (declareRows _ _ (plainRows_selection ys _ (plain _ _ z))).bind fun _ => pure z

theorem maximum (operands : List Polynomial) :
    Linearizes cfg IsPlain (maximum cfg operands) :=
  selection (by simp [PlainRows, maximumChoiceRows]) operands

theorem minimum (operands : List Polynomial) :
    Linearizes cfg IsPlain (minimum cfg operands) :=
  selection (by simp [PlainRows, minimumChoiceRows]) operands

theorem checkBooleans (label : String) (operands : List Polynomial) :
    Linearizes cfg IsPlain (checkBooleans label operands) := by
  unfold Linearization.checkBooleans
  refine when (fun _ => refuse_plain ⟨rfl, rfl, nofun, nofun⟩) fun _ => ?_
  refine model.bind fun m => forM fun e _ => ?_
  refine plain_bind (m.plain_isBoolean e) fun boolean => ?_
  exact ite (pure _) (refuse_plain ⟨rfl, rfl, nofun, nofun⟩)

theorem connective {label : String} {rows : Polynomial → List (Except Error Row)}
    (plain : ∀ z, PlainRows (rows z)) (operands : List Polynomial) :
    Linearizes cfg IsPlain (connective cfg operands label rows) := by
  refine (checkBooleans label operands).bind fun _ => ?_
  split
  · exact pure _
  · refine (nextFamily label).bind fun use => (introduce _ _ _ _ _).bind fun z => ?_
    exact (declareRows _ _ (plain z)).bind fun _ => pure z

theorem conjunction (operands : List Polynomial) :
    Linearizes cfg IsPlain (conjunction cfg operands) :=
  connective (plainRows_conjunction · operands) operands

theorem disjunction (operands : List Polynomial) :
    Linearizes cfg IsPlain (disjunction cfg operands) :=
  connective (plainRows_disjunction · operands) operands

theorem choice (cond yes no : Polynomial) :
    Linearizes cfg IsPlain (choice cfg cond yes no) := by
  refine model.bind fun m => plain_bind (m.plain_isBoolean cond) fun boolean => ?_
  refine when (fun _ => refuse_plain ⟨rfl, rfl, nofun, nofun⟩) fun _ => ite (pure _) (ite ?_ ?_)
  · refine plain_bind (plain_orOverflow _) fun step => ?_
    exact plain_bind (cond.plain_scale step) fun p => lift (no.plain_add p)
  · refine plain_bind (m.plain_finiteBoundsOf yes _) fun thenBounds => ?_
    refine plain_bind (m.plain_finiteBoundsOf no _) fun elseBounds => ?_
    refine (nextFamily "if").bind fun use => (introduce _ _ _ _ _).bind fun z => ?_
    exact (declareRows _ _ (plainRows_choice _ z cond _ _ _ _ _ _)).bind fun _ => pure z

/-! The data of a piecewise linear function need not be numbers, and may be too few. -/

variable {safe : Error → Prop}

theorem orOutOfRange {value : Option Value}
    (given : value.isSome = true ∨ safe (.broken .outOfRange)) :
    Linearizes cfg safe (liftM (orOutOfRange value) : Assembly Value) := by
  cases value with
  | some v => exact pure v
  | none => exact lift (given.resolve_left (by decide))

variable (plain : ∀ e, IsPlain e → safe e)
include plain

theorem addSegment {family : String} {n k : Nat} {low high : Value} {slope intercept : Option Value}
    {done : Segments} (isLow : FailsOnly safe (portionLower low))
    (isHigh : FailsOnly safe (portionUpper high))
    (steep : slope.isSome = true ∨ safe (.broken .outOfRange))
    (level : intercept.isSome = true ∨ safe (.broken .outOfRange)) :
    Linearizes cfg safe (addSegment cfg family n k low high slope intercept done) := by
  have computed : ∀ {α β : Type} {result : Except Error α} {f : α → Assembly β}, Plain result →
      (∀ a, Linearizes cfg safe (f a)) → Linearizes cfg safe (liftM result >>= f) :=
    fun isPlain rest => ((lift isPlain).mono plain).bind rest
  refine ((introduce _ _ _ _ _).mono plain).bind fun y => (lift isLow).bind fun lower => ?_
  refine (lift isHigh).bind fun upper => computed (Bound.plain_ofValue lower) fun l => ?_
  refine computed (Bound.plain_ofValue upper) fun u => ?_
  refine ((introduce _ _ _ _ _).mono plain).bind fun w => ?_
  refine ((declareRows _ _ (plainRows_segment k y w low high)).mono plain).bind fun _ => ?_
  refine (orOutOfRange steep).bind fun slope => ?_
  refine computed (Polynomial.plain_ofValue slope) fun p => computed (w.plain_mul p) fun q => ?_
  refine computed (done.result.plain_add q) fun rising => ?_
  refine (orOutOfRange level).bind fun intercept => ?_
  refine computed (Polynomial.plain_ofValue intercept) fun p => ?_
  exact computed (y.plain_mul p) fun q => computed (rising.plain_add q) fun result => pure _

variable {breakpoints slopes offsets : List Value}
  (portions : ∀ v ∈ breakpoints,
    FailsOnly safe (portionLower v) ∧ FailsOnly safe (portionUpper v))
  (steep : breakpoints.length = slopes.length + 1 ∨ safe (.broken .outOfRange))
  (level : breakpoints.length = offsets.length + 1 ∨ safe (.broken .outOfRange))
include portions steep level

theorem addSegments {family : String} {n k : Nat} {done : Segments} :
    Linearizes cfg safe
      (addSegments cfg family n k breakpoints slopes offsets done) := by
  fun_induction Linearization.addSegments cfg family n k breakpoints slopes offsets done with
  | case1 k low high points slopes offsets done ih =>
    have first : ∀ {vs : List Value}, (low :: high :: points).length = vs.length + 1 →
        vs.head?.isSome = true := by
      rintro (_ | ⟨v, vs⟩) fits
      · cases fits
      · rfl
    have others : ∀ {vs : List Value}, (low :: high :: points).length = vs.length + 1 →
        (high :: points).length = vs.tail.length + 1 := by
      rintro (_ | ⟨v, vs⟩) fits
      · cases fits
      · exact Nat.succ.inj fits
    rw [forall_mem_cons] at portions
    refine (addSegment plain portions.1.1 (portions.2 high mem_cons_self).2
      (steep.imp_left first) (level.imp_left first)).bind fun done => ?_
    exact ih done portions.2 (steep.imp_left others) (level.imp_left others)
  | case2 => exact pure _

theorem piecewise {e : Polynomial} :
    Linearizes cfg safe (piecewise cfg e breakpoints slopes offsets) := by
  refine ((nextFamily "pwl").mono plain).bind fun use => ?_
  refine (addSegments plain portions steep level).bind fun segments => ?_
  exact ((declareRows _ _ (plainRows_link _ _ e)).mono plain).bind fun _ => pure _

end Linearizations

/-! ## Compilation -/

section Compilation

open Compilation

variable {compileTree : Subtrees} {ctx : Context}

theorem plain {result : Except Error α} (isPlain : Plain result) :
    Linearizes cfg NoClash (liftM result : Assembly α) := lift isPlain.clashFree

theorem operands {args : List Expr} : Linearizes cfg NoClash (operands e args ctx) := by
  unfold Compilation.operands
  split
  · exact pure _
  · refine model.bind fun m => (lift (Wildcard.clashFree_expand _ _ _)).bind
      fun instances => ?_
    exact ite (lift (clashFree_raise rfl)) (pure _)

section Nodes

variable (subtrees : ∀ e ctx, Linearizes cfg NoClash (compileTree e ctx))
include subtrees

theorem sumTrees {trees : List Expr} :
    Linearizes cfg NoClash (sumTrees compileTree trees ctx) :=
  foldlM (fun total _ => (subtrees _ _).bind fun p => plain (total.plain_add p)) _ _

theorem compileSummand : Linearizes cfg NoClash (compileSummand compileTree e ctx) :=
  ite (model.bind fun _ => (lift (Wildcard.clashFree_expand _ _ _)).bind fun _ =>
    sumTrees subtrees) (subtrees _ _)

theorem compileCondition (e : Expr) :
    Linearizes cfg NoClash (compileCondition compileTree ctx e) := by
  refine (lift (clashFree_constantCondition e ctx)).bind fun constant => ?_
  split
  · exact pure _
  · exact subtrees _ _

theorem compileAggregate {op : Aggregate} {trees : List Expr} :
    Linearizes cfg NoClash (compileAggregate cfg compileTree op trees ctx) := by
  cases op with
  | max => exact (mapM (subtrees · _) _).bind fun ps => (maximum ps).mono IsPlain.noClash
  | min => exact (mapM (subtrees · _) _).bind fun ps => (minimum ps).mono IsPlain.noClash
  | and =>
    exact (mapM (compileCondition subtrees) _).bind fun ps =>
      (conjunction ps).mono IsPlain.noClash
  | or =>
    exact (mapM (compileCondition subtrees) _).bind fun ps =>
      (disjunction ps).mono IsPlain.noClash

theorem compileNode : Linearizes cfg NoClash (compileNode cfg compileTree e ctx) := by
  refine ite (lift (clashFree_foldConstant e ctx)) ?_
  have summand : ∀ (total : Polynomial) (e : Expr) (ctx : Context),
      Linearizes cfg NoClash (do
        total.add (← Compilation.compileSummand compileTree e ctx)) := fun total e ctx =>
    (compileSummand subtrees).bind fun p => plain (total.plain_add p)
  cases e with
  | sumOver body gens =>
    exact foldListing (fun total inner => summand total body inner)
      (clashFree_bindings gens ctx) _
  | sum => exact foldlM (fun total arg => summand total arg ctx) _ _
  | abs => exact (subtrees _ _).bind fun p => (absolute p).mono IsPlain.noClash
  | aggregate => exact operands.bind fun _ => compileAggregate subtrees
  | ifThenElse cond =>
    refine (compileCondition subtrees cond).bind fun c => (subtrees _ _).bind fun whenTrue => ?_
    exact (subtrees _ _).bind fun whenFalse =>
      (choice c whenTrue whenFalse).mono IsPlain.noClash
  | piecewise =>
    exact (subtrees _ _).bind fun _ => piecewise IsPlain.noClash
      (fun v _ => ⟨Linearization.clashFree_portionLower v,
        Linearization.clashFree_portionUpper v⟩) (.inr rfl) (.inr rfl)
  | ref name indices =>
    exact model.bind fun m => lift (clashFree_foldReference _ name indices ctx)
  | arith op =>
    refine (subtrees _ _).bind fun l => (subtrees _ _).bind fun r => ?_
    exact lift (clashFree_joinPolynomials _ op l r)
  | negate => exact (subtrees _ _).bind fun p => plain p.plain_neg
  | each | compare | wildcard | literal | symbol | lookup | range =>
    exact lift (clashFree_raise rfl)

end Nodes

theorem compileWithin (limit : Nat) (e : Expr) (ctx : Context) :
    Linearizes cfg NoClash (compileWithin cfg limit e ctx) := by
  induction limit generalizing e ctx with
  | zero => exact lift (clashFree_raise rfl)
  | succ _ ih => exact compileNode ih

theorem compile (e : Expr) (ctx : Context) :
    Linearizes cfg NoClash (compile cfg e ctx) := compileWithin _ e ctx

/-! ## Statements -/

theorem compile_operating : Operates cfg (fun _ => True)
    (Compilation.compile cfg e ctx) :=
  (compile e ctx).refine (fun _ _ => trivial) linearizing_operating

theorem addConstraintInstance {op : Comparison} {left right : Expr}
    {gens : List GeneratorItem} {desc : Value} :
    Operates cfg (fun _ => True)
      (addConstraintInstance cfg op left right gens desc ctx) := by
  refine compute.bind fun shown => (atom .registerDeclaration).bind fun _ => ?_
  refine compile_operating.bind fun lhs => compile_operating.bind fun rhs => ?_
  exact compute.bind fun label => compute.bind fun rel =>
    addConstraint (fun _ _ => trivial) (atom .storeConstraint)

/-- A statement is one transaction, after which only the log changes. -/
theorem applyStatement_eq (cfg : Config) (params : Parameters) (replace : Bool)
    (stmt : Statement) :
    ∃ (β : Type) (body : Assembly β) (finish : β → Assembly Added),
      applyStatement cfg params replace stmt = (Assembly.transaction body >>= finish)
        ∧ Operates cfg (fun _ => True) body
        ∧ (∀ b, Operates cfg (fun _ => True) (finish b))
        ∧ ∀ b s, ∃ added log, (finish b).run s = (.ok added, { s with log }) := by
  cases stmt with
  | variableFamily =>
    refine ⟨_, _, _, bind_assoc _ _ _, foldListing (fun done ctx => ?_) (Listing.failsOnly_any _) _,
      fun _ => (report _).bind fun _ => pure _, fun b s => ⟨_, _, rfl⟩⟩
    refine compute.bind fun low => compute.bind fun high => compute.bind fun text => ?_
    exact (declareVariable fun _ _ _ _ => trivial).bind fun _ => pure _
  | constraintFamily =>
    refine ⟨_, _, _, rfl, foldListing (fun done ctx => ?_) (Listing.failsOnly_any _) _,
      fun _ => pure _, fun b s => ⟨_, s.log, rfl⟩⟩
    refine addConstraintInstance.bind fun declared => ?_
    split <;> exact pure _
  | objective _ direction =>
    refine ⟨_, _, _, rfl, ?_, fun _ => pure _, fun b s => ⟨_, s.log, rfl⟩⟩
    exact compile_operating.bind fun polynomial => compute.bind fun direction => atom .setObjective

theorem applyStatement {params : Parameters} {replace : Bool} {stmt : Statement} :
    Operates cfg (fun _ => True)
      (applyStatement cfg params replace stmt) := by
  obtain ⟨β, body, finish, shape, step, finishes, -⟩ :=
    applyStatement_eq cfg params replace stmt
  rw [shape]
  exact step.transaction.bind finishes

end Compilation

end Composed

end LinearProgram
