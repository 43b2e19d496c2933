import LinearProgram.Proofs.CompileEnds
import LinearProgram.Proofs.DocumentShape
import LinearProgram.Proofs.Rollback

/-!
# How statements end

A statement that was loaded from JSON is carried out, or fails with one of the announced kinds of
failures, unless it reads an attribute of the host, has a fault that can be read off it
(`Statement.faults`), or numbers or sequences are too large (`Statement.failure_explained`).
-/

namespace LinearProgram

open List Assembly Compilation

variable {desc : Value} {gens : List GeneratorItem}

/-! ## The faults of a statement -/

namespace Statement

/-- The trees that are compiled; bounds are only evaluated. -/
def compiled : Statement → List Expr
  | variableFamily _ _ _ _ _ _ => []
  | constraintFamily _ left right _ _ => [left, right]
  | objective expr _ => [expr]

/-- Whether families and constraints can be called as they are asked to be. -/
def isNamed (ranks : Ranks) : Statement → Bool
  | variableFamily name gens _ _ _ desc =>
    name.str?.isSome && (boundNames gens).all (fun name => ranks.bound name == some 0)
      && desc.isLabel
  | constraintFamily _ _ _ _ desc => desc.isLabel
  | objective _ _ => true

/-- Whether all data have the shape that is needed where they stand. -/
def isSuited (ranks : Ranks) (stmt : Statement) : Bool :=
  Expr.itemsSuited ranks stmt.generators
    && stmt.data.all (Expr.datumSuited (ranks.behind stmt.generators))
    && stmt.isNamed (ranks.behind stmt.generators)

/-- Whether a filter, or the container of a wildcard, mentions a decision variable. -/
def hasOpenCondition (stmt : Statement) : Bool :=
  stmt.generators.any GeneratorItem.isOpenFilter
    || stmt.compiled.any Expr.hasOpenCondition

/-- Whether the container of a wildcard needs more values than there are. -/
def hasNestedWildcard (stmt : Statement) : Bool :=
  stmt.compiled.any Expr.hasNestedWildcard

/-- The faults of a statement under given parameters. -/
def faults (cfg : Config) (params : Parameters) (stmt : Statement) : Faults where
  openCondition := stmt.hasOpenCondition = true
  nestedWildcard := stmt.hasNestedWildcard = true
  unsuited := stmt.isSuited (.ofParameters params) = false
    ∨ cfg.maxNameLength.toInt? = none
  attributes := params.host.attributes

/-- A statement with its faults. -/
structure Excused (faults : Faults) (ranks : Ranks) (stmt : Statement) : Prop where
  formed : stmt.IsFormed faults.attributes
  suited : stmt.isSuited ranks = true ∨ faults.unsuited
  closed : stmt.hasOpenCondition = false ∨ faults.openCondition
  unnested : stmt.hasNestedWildcard = false ∨ faults.nestedWildcard

namespace Excused

variable {faults : Faults} {ranks : Ranks} {stmt : Statement}

theorem items (excused : stmt.Excused faults ranks) :
    Expr.ItemsReadable faults ranks stmt.generators where
  layered item mem := (excused.formed.generators item mem).1
  formed := forall_mem_flatMap.mpr fun item mem => (excused.formed.generators item mem).2
  suited := excused.suited.imp_left fun suited => by
    rw [isSuited, Bool.and_eq_true, Bool.and_eq_true] at suited
    exact suited.1.1
  closed := excused.closed.imp_left fun closed => by
    rw [hasOpenCondition, Bool.or_eq_false_iff] at closed
    exact closed.1

theorem datum (excused : stmt.Excused faults ranks) {e : Expr}
    (mem : .tree e ∈ stmt.data) :
    e.AllFormed faults.attributes
      ∧ (e.isSuited (ranks.behind stmt.generators) = true ∨ faults.unsuited) := by
  refine ⟨excused.formed.data _ mem, excused.suited.imp_left fun suited => ?_⟩
  rw [isSuited, Bool.and_eq_true, Bool.and_eq_true] at suited
  exact all_eq_true.mp suited.1.2 _ mem

theorem named (excused : stmt.Excused faults ranks) :
    stmt.isNamed (ranks.behind stmt.generators) = true ∨ faults.unsuited :=
  excused.suited.imp_left fun suited => by
    rw [isSuited, Bool.and_eq_true, Bool.and_eq_true] at suited
    exact suited.2

theorem tree_of_compiled {e : Expr} (mem : e ∈ stmt.compiled) :
    .tree e ∈ stmt.data := by
  cases stmt with
  | variableFamily => cases mem
  | constraintFamily | objective => simpa [compiled, Statement.data] using mem

theorem compiled (excused : stmt.Excused faults ranks) {e : Expr}
    (mem : e ∈ stmt.compiled) :
    e.Excused faults (ranks.behind stmt.generators) where
  formed := (excused.datum (tree_of_compiled mem)).1
  suited := (excused.datum (tree_of_compiled mem)).2
  closed := excused.closed.imp_left fun closed => by
    rw [Statement.hasOpenCondition, Bool.or_eq_false_iff] at closed
    exact Bool.eq_false_iff.mpr (any_eq_false.mp closed.2 e mem)
  unnested := excused.unnested.imp_left fun unnested => by
    rw [Statement.hasNestedWildcard, any_eq_false] at unnested
    exact Bool.eq_false_iff.mpr (unnested e mem)

end Excused

end Statement

/-! ## Parts of statements -/

section Parts

variable {faults : Faults} {ranks : Ranks} {ctx : Context} {desc : Value}

theorem fillDescription_ends (desc : Value) (ctx : Context) :
    Ends (fun text => text.isLabel = true) faults.Explain
      (fillDescription desc ctx) := by
  unfold fillDescription
  split
  · split
    · exact rfl
    · exact Faults.ends_raise rfl (.inl rfl)
    · exact Faults.ends_raise rfl (.inl rfl)
  · exact Faults.ends_raise rfl (.inl rfl)

section Label

variable (isLabel : desc.isLabel = true ∨ faults.unsuited)
include isLabel

theorem mentionsBrace_ends (given : desc ≠ .none) :
    Ends (fun _ => True) faults.Explain (mentionsBrace desc) := by
  unfold mentionsBrace
  split
  case h_9 notText _ _ _ _ _ _ _ =>
    refine isLabel.resolve_left fun isLabel => ?_
    cases desc with
    | none => exact given rfl
    | str s => exact notText s rfl
    | _ => cases isLabel
  all_goals exact trivial

theorem describe_ends :
    Ends (fun _ => True) faults.Explain (describe desc ctx) := by
  unfold describe
  split
  case h_1 => exact trivial
  case h_2 given =>
    refine (mentionsBrace_ends isLabel given).bind fun filled _ _ => ?_
    split
    · exact (fillDescription_ends desc ctx).mono (fun _ _ => trivial) fun _ => id
    · exact trivial

theorem constraintLabel_ends (gens : List GeneratorItem) :
    Ends (fun label => label.isLabel = true ∨ faults.unsuited) faults.Explain
      (Compilation.constraintLabel desc gens ctx) := by
  unfold Compilation.constraintLabel
  split
  case h_1 => exact .inl rfl
  case h_2 given =>
    refine (mentionsBrace_ends isLabel given).bind fun filled _ _ => ?_
    split
    · exact (fillDescription_ends desc ctx).mono (fun _ => .inl) fun _ => id
    · dsimp only
      split
      · exact isLabel
      · have isText : desc.str?.isSome = true ∨ faults.unsuited :=
          isLabel.imp_left fun isLabel => by
            cases desc with
            | none => exact absurd rfl given
            | str => rfl
            | _ => cases isLabel
        exact (Faults.ends_orUnsupported isText).bind fun s _ _ => .inl rfl

end Label

theorem relationOf_ends (op : Comparison) :
    Ends (fun _ => True) faults.Explain (relationOf (.str op.sign)) := by
  cases op with
  | ne => exact Faults.ends_raise rfl (.inl rfl)
  | _ => exact trivial

theorem boundValue_ends {bound : Datum}
    (excused : ∀ e, bound = .tree e →
      e.AllFormed faults.attributes ∧ (e.isSuited ranks = true ∨ faults.unsuited))
    (fits : ctx.Fits faults ranks) :
    Ends (fun _ => True) faults.Explain (boundValue ctx bound) := by
  cases bound with
  | data => exact trivial
  | tree e =>
    obtain ⟨formed, suited⟩ := excused e rfl
    rw [boundValue]
    split
    case isTrue constant =>
      have closed := Expr.mentionsReference_of_isConstant constant
      exact (e.evaluate_ends ⟨formed, suited, .inl closed⟩ fits).mono (fun _ _ => trivial)
        fun _ => id
    case isFalse =>
      exact Faults.ends_raise_of (Expr.named_of_suited suited) rfl fun text isText => by
        simp [Cause.message?, isText]

/-- Names that stand for keys give an index. -/
theorem indexValues_keys (fits : ctx.Fits faults ranks)
    (keys : (boundNames gens).all (fun name => ranks.bound name == some 0) = true) :
    Value.areKeys (indexValues gens ctx) = true ∨ faults.unsuited := by
  by_cases fault : faults.unsuited
  · exact .inr fault
  · refine .inl (Value.areKeys_iff.mpr fun v mem => ?_)
    obtain ⟨item, inside, found⟩ := mem_filterMap.mp mem
    obtain ⟨name, isName, isValue⟩ := Option.bind_eq_some_iff.mp found
    have bound := all_eq_true.mp keys name (mem_filterMap.mpr ⟨item, inside, isName⟩)
    exact (fits.values name 0 v (beq_iff_eq.mp bound) isValue).isKey.resolve_right fault

end Parts

/-! ## Statements -/

namespace Settles

variable {faults : Faults} {cfg : Config} {params : Parameters} {ranks : Ranks}
  (limited : cfg.maxNameLength.toInt?.isSome = true ∨ faults.unsuited)
  (fits : ({ parameters := params } : Context).Fits faults ranks)

theorem registerDeclaration {signature : Value} {label : String} (isKey : signature.isKey = true) :
    Settles faults (fun _ => True) (registerDeclaration signature label) :=
  of_keeps (.registerDeclaration (Model.keyed_invariant {})) fun s _ _ =>
    (Composed.registerDeclaration (.inl isKey) (Faults.ends_raise rfl (.inl rfl))).failsOnly s

theorem setObjective (objective : Objective) (replace : Bool) :
    Settles faults (fun _ => True) (Assembly.setObjective objective replace) :=
  of_keeps (.setObjective (Model.keyed_invariant {})) fun s _ _ =>
    (Composed.setObjective (Faults.ends_raise rfl (.inl rfl))).failsOnly s

include limited

theorem declareVariable {name kind lower upper : Value} {index : List Value} {auxiliary : Bool}
    (isText : name.str?.isSome = true ∨ faults.unsuited)
    (keys : Value.areKeys index = true ∨ faults.unsuited) :
    Settles faults (fun _ => True)
      (declareVariable cfg name index kind lower upper desc auxiliary) := by
  refine transaction (plain_bind (plain_kind kind) fun kind => ?_)
  refine plain_bind (Bound.plain_ofValue lower) fun lower => ?_
  refine plain_bind (Bound.plain_ofValue upper) fun upper => ?_
  refine plain_bind (Bound.plain_check _ kind lower upper) fun _ => ?_
  cases name with
  | str => exact addVariable limited keys
  | _ => exact lift (isText.resolve_left nofun)

include fits

theorem addVariables {name kind : Value} {lower upper : Datum}
    (excused : (Statement.variableFamily name gens kind lower upper desc).Excused
      faults ranks) :
    Settles faults (fun _ => True)
      (addVariables cfg params name gens kind lower upper desc) := by
  have named := excused.named
  simp only [Statement.isNamed, Bool.and_eq_true] at named
  refine bind (transaction (foldListing (bindings_ends excused.items fits) ?_ []))
    fun declared _ => report_bind (pure trivial)
  intro done ctx fits'
  refine lift_bind (boundValue_ends (fun e isTree => ?_) fits') fun low _ => ?_
  · exact excused.datum (by simp [Statement.data, isTree])
  refine lift_bind (boundValue_ends (fun e isTree => ?_) fits') fun high _ => ?_
  · exact excused.datum (by simp [Statement.data, isTree])
  refine lift_bind (describe_ends (named.imp_left And.right)) fun text _ => ?_
  have keys := named.elim (fun named => indexValues_keys fits' named.1.2) .inr
  exact (declareVariable limited (named.imp_left (·.1.1)) keys).map

omit fits in
/-- One binding of a constraint statement. -/
theorem addConstraintInstance {op : Comparison} {left right : Expr} {ctx : Context}
    {inner : Ranks} (isLeft : left.Excused faults inner) (isRight : right.Excused faults inner)
    (isLabel : desc.isLabel = true ∨ faults.unsuited) (fits : ctx.Fits faults inner) :
    Settles faults (fun _ => True)
      (addConstraintInstance cfg op left right gens desc ctx) := by
  have shown : (Expr.compare op left right).text?.isSome = true ∨ faults.unsuited := by
    rcases isLeft.named with isText | fault
    · refine isRight.named.imp_left fun isText' => ?_
      obtain ⟨l, isText⟩ := Option.isSome_iff_exists.mp isText
      obtain ⟨r, isText'⟩ := Option.isSome_iff_exists.mp isText'
      simp [Expr.text?, isText, isText']
    · exact .inr fault
  refine lift_bind (Faults.ends_orUnsupported shown) fun text _ => ?_
  refine (registerDeclaration rfl).bind fun _ _ => ?_
  refine (compile limited isLeft fits).bind fun lhs _ => ?_
  refine (compile limited isRight fits).bind fun rhs _ => ?_
  refine lift_bind (constraintLabel_ends isLabel gens) fun label isLabel => ?_
  exact lift_bind (relationOf_ends op) fun rel _ => addConstraint limited isLabel

theorem addConstraints {op : Comparison} {left right : Expr}
    (excused : (Statement.constraintFamily op left right gens desc).Excused faults
      ranks) :
    Settles faults (fun _ => True)
      (addConstraints cfg params op left right gens desc) := by
  refine transaction (foldListing (bindings_ends excused.items fits)
    (fun done ctx fits' => ?_) [])
  refine bind (addConstraintInstance limited (excused.compiled (by simp [Statement.compiled]))
    (excused.compiled (by simp [Statement.compiled])) excused.named fits') fun declared _ => ?_
  split <;> exact pure trivial

/-- **Statements.** A statement with its faults is carried out, or fails as these explain. -/
theorem applyStatement {stmt : Statement} {replace : Bool}
    (excused : stmt.Excused faults ranks) :
    Settles faults (fun _ => True) (applyStatement cfg params replace stmt) := by
  cases stmt with
  | variableFamily => exact (addVariables limited fits excused).map
  | constraintFamily => exact (addConstraints limited fits excused).map
  | objective expr direction =>
    have tree : expr.Excused faults ranks := excused.compiled mem_cons_self
    refine map (transaction ((compile limited tree fits).bind fun polynomial _ => ?_))
    exact plain_bind (plain_direction direction) fun direction => setObjective _ replace

end Settles

end LinearProgram
