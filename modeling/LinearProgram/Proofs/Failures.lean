import LinearProgram.Proofs.EvaluationFailures
import LinearProgram.Proofs.ExactData
import LinearProgram.Proofs.PlainFailures

/-!
# What a computation can fail with

A declaration is refused with a *clash* when what it declares is there already (`Cause.clash?`).
Evaluation, expansion, arithmetic and the checks of bounds never fail that way (`ClashFree`), so a
clash comes from the model.
-/

namespace LinearProgram

variable {cause : Cause}

/-- The readable name of what is there already, if a cause says so. -/
def Cause.clash? : Cause → Option String
  | arityMismatch _ _ name | kindMismatch _ _ _ name | redeclared name | repeatedConstraint name
  | sharedName name _ _ | reservedName name | duplicateConstraint name
  | collidingConstraint name _ _ => some name
  | _ => none

/-- Clashes are the redefinitions and the duplicate names. -/
theorem Cause.clash?_isSome_iff (cause : Cause) :
    cause.clash?.isSome = true ↔ cause.kind = .redefinition ∨ cause.kind = .duplicateName := by
  cases cause <;> simp [clash?, kind]
  case parameters fault => cases fault <;> simp [ParameterFault.kind]

def Error.clash? : Error → Option String
  | refused cause => cause.clash?
  | broken _ => none

/-- An error that is no clash. -/
def Error.NoClash (e : Error) : Prop := e.clash? = none

/-- The refusal of a repeated constraint. -/
def Error.isRepeat : Error → Bool
  | refused (.repeatedConstraint _) => true
  | _ => false

theorem Error.isRepeat_of_clash (e : Error) (free : e.NoClash) : e.isRepeat = false := by
  unfold isRepeat
  split
  · cases free
  · rfl

@[simp] theorem Error.noClash_broken (breakdown : Breakdown) : (broken breakdown).NoClash := rfl

theorem Cause.noClash (noRedefinition : cause.kind ≠ .redefinition)
    (noDuplicate : cause.kind ≠ .duplicateName) : (Error.refused cause).NoClash := by
  have other : ¬ cause.clash?.isSome = true := by
    rw [clash?_isSome_iff]
    exact not_or.mpr ⟨noRedefinition, noDuplicate⟩
  exact Option.not_isSome_iff_eq_none.mp other

theorem Error.IsPlain.noClash (e : Error) (isPlain : e.IsPlain) : e.NoClash := by
  cases e with
  | broken => rfl
  | refused => exact Cause.noClash isPlain.2.2.1 isPlain.2.2.2

theorem Error.IsOrdinary.noClash (e : Error) (ordinary : e.IsOrdinary) : e.NoClash := by
  cases e with
  | broken => rfl
  | refused =>
    refine Cause.noClash (fun known => ?_) fun known => ?_ <;>
      simp [IsOrdinary, known, ErrorKind.isOrdinary] at ordinary

/-- A computation that does not fail with a clash. -/
abbrev ClashFree {α : Type} (x : Except Error α) : Prop := FailsOnly Error.NoClash x

section Sequences

variable {α : Type}

instance : Tolerant Error.NoClash := tolerant_of_ordinary Error.IsOrdinary.noClash

theorem Plain.clashFree {x : Except Error α} (plain : Plain x) : ClashFree x :=
  plain.mono Error.IsPlain.noClash

theorem clashFree_raise (other : cause.clash? = none) :
    ClashFree (raise cause : Except Error α) := FailsOnly.raise other rfl

theorem clash_of_raise {e : Error} {name : String}
    (failed : (raise cause : Except Error α) = .error e) (clash : e.clash? = some name) :
    cause.clash? = some name := by
  unfold raise at failed
  cases failed
  split at clash
  · exact clash
  · cases clash

@[simp] theorem clashFree_orUnsupported (x : Option α) : ClashFree (orUnsupported x) := by
  cases x <;> simp [orUnsupported]

end Sequences

/-! ## Evaluation -/

/-- Evaluation is free of clashes: what a node without a value is refused for is none either. -/
theorem Expr.clashFree_evaluate (e : Expr) (ctx : Context) :
    ClashFree (e.evaluate ctx) := by
  refine (failsOnly_evaluate e ctx).mono ?_
  rintro failure (ordinary | ⟨node, -, cause, refused, rfl⟩)
  · exact ordinary.noClash failure
  · revert refused
    fun_cases refusal? node <;> rintro ⟨⟩ <;> rfl

theorem clashFree_bindings (gens : List GeneratorItem) (ctx : Context) :
    (bindings gens ctx).FailsOnly Error.NoClash :=
  Expr.failsOnly_bindings_of Error.IsOrdinary.noClash (fun e _ => e.clashFree_evaluate) ctx

/-! ## References and wildcards -/

theorem clashFree_resolveIndex (reference : Expr) (name : Value) (ctx : Context)
    (index : Expr) : ClashFree (resolveIndex reference name ctx index) := by
  unfold resolveIndex
  split
  · exact clashFree_raise rfl
  · exact failsOnly_resolve ctx _
  · exact failsOnly_ite.mpr
      ⟨fun _ => index.clashFree_evaluate ctx, fun _ => clashFree_raise rfl⟩

theorem clashFree_resolveIndices (name : Value) (indices : List Expr) (ctx : Context) :
    ClashFree (resolveIndices name indices ctx) :=
  FailsOnly.mapM fun index _ => clashFree_resolveIndex _ name ctx index

theorem clashFree_declares (m : Model) (name : Value) (index : List Value) :
    ClashFree (m.declares name index) := by
  unfold Model.declares
  refine failsOnly_ite.mpr ⟨fun _ => by simp, fun _ => ?_⟩
  split <;> simp

theorem clashFree_resolveReference (registry : Option Model) (name : Value) (indices : List Expr)
    (ctx : Context) : ClashFree (resolveReference registry name indices ctx) := by
  unfold resolveReference
  refine failsOnly_bind.mpr ⟨clashFree_resolveIndices name indices ctx, fun index _ => ?_⟩
  split
  · simp
  · refine failsOnly_bind.mpr ⟨clashFree_declares _ name index, fun declared _ => ?_⟩
    refine failsOnly_ite.mpr ⟨fun _ => by simp, fun _ => ?_⟩
    split
    · exact failsOnly_ite.mpr ⟨fun _ => clashFree_raise rfl, fun _ => clashFree_raise rfl⟩
    · exact clashFree_raise rfl

namespace Expr

theorem clashFree_carriers (inChain : Bool) (e : Expr) : ClashFree (e.carriers inChain) :=
  failsOnly_carriers (show Error.NoClash _ from rfl) e inChain

theorem clashFree_substitute (values : List Value) (e : Expr) :
    ClashFree (e.substitute values) :=
  failsOnly_substitute (show Error.NoClash _ from rfl) (.inr ⟨rfl, rfl⟩)

end Expr

namespace Wildcard

section Parts

variable {allowed : Error → Prop} {registry : Option Model} {ctx : Context}
  {assigned : List Value} {references : List Expr}

theorem failsOnly_indexPattern {reference : Expr} {name : Value} {role : Nat} {indices : List Expr}
    (each : ∀ index ∈ indices, FailsOnly allowed (resolveIndex reference name ctx index))
    (seen position : Nat) :
    FailsOnly allowed
      (indexPattern reference name ctx role assigned indices seen position) := by
  induction indices generalizing seen position with
  | nil => exact trivial
  | cons _ _ ih =>
    rw [List.forall_mem_cons] at each
    unfold indexPattern
    exact failsOnly_ite.mpr ⟨fun _ => by simp [ih each.2], fun _ => by simp [each.1, ih each.2]⟩

/-- Every way to fill the roles, if a role only gets values that keep an invariant. -/
theorem ends_assignments {P : List Value → Prop} {carriers : List Expr}
    (domain : ∀ assigned, P assigned → Ends (fun values => ∀ v ∈ values, P (assigned ++ [v]))
      allowed (roleDomain registry ctx carriers assigned))
    (roles : Nat) (start : P assigned) :
    (assignments registry ctx carriers roles assigned).Ends
      (fun values => P values ∧ values.length = assigned.length + roles) allowed := by
  induction roles generalizing assigned with
  | zero => exact ⟨List.forall_mem_singleton.mpr ⟨start, rfl⟩, nofun⟩
  | succ _ ih =>
    unfold assignments
    split
    case h_1 e failed => exact Listing.ends_stop ((domain assigned start).of_error failed)
    case h_2 values listed =>
      refine Listing.Ends.chain fun value mem => ?_
      have more := ih ((domain assigned start).of_ok listed value mem)
      refine ⟨fun filled inside => (more.items filled inside).imp_right fun length => ?_, more.stop⟩
      rw [length, List.length_append, List.length_singleton]
      omega

theorem failsOnly_allDeclared {values : List Value}
    (each : ∀ c ∈ references, FailsOnly allowed (isDeclared registry ctx values c)) :
    FailsOnly allowed (allDeclared registry ctx values references) := by
  induction references with
  | nil => exact trivial
  | cons _ _ ih =>
    rw [List.forall_mem_cons] at each
    simp [allDeclared, each.1, ih each.2]

end Parts

theorem clashFree_familyDomain (registry : Option Model) (ctx : Context) (role : Nat)
    (assigned : List Value) (name : Value) (indices : List Expr) :
    ClashFree (familyDomain registry ctx role assigned name indices) := by
  have pattern : ∀ reference, ClashFree
      (indexPattern reference name ctx role assigned indices 0 0) := fun reference =>
    failsOnly_indexPattern (fun index _ => clashFree_resolveIndex reference name ctx index) 0 0
  have refused : ∀ reference : Expr,
      ClashFree (raise (.wildcardFamily reference name) : Except Error (List (List Value))) :=
    fun _ => clashFree_raise rfl
  unfold familyDomain
  dsimp only
  split
  · split <;> simp [pattern, refused]
  · simp [pattern, refused]
  · simp [pattern, refused]

theorem clashFree_containerDomain (ctx : Context) (role : Nat) (assigned : List Value)
    (chain : Expr) : ClashFree (containerDomain ctx role assigned chain) := by
  unfold containerDomain
  split
  · refine failsOnly_bind.mpr ⟨Expr.clashFree_substitute assigned _, fun container _ => ?_⟩
    refine failsOnly_bind.mpr ⟨container.clashFree_evaluate ctx, fun value _ => ?_⟩
    split
    · simp
    · split
      · exact (Value.ends_rangeList _ _ _).failsOnly
      · exact clashFree_raise rfl
  · simp

section

variable (registry : Option Model) (ctx : Context)
include registry ctx

theorem clashFree_roleDomain (carriers : List Expr) (assigned : List Value) :
    ClashFree (roleDomain registry ctx carriers assigned) := by
  have containers : ∀ taking : List Expr,
      ClashFree (taking.mapM (containerDomain ctx assigned.length assigned)) :=
    fun taking => FailsOnly.mapM fun chain _ => clashFree_containerDomain _ _ _ chain
  unfold roleDomain
  dsimp only
  split
  · simp [containers]
  · refine failsOnly_bind.mpr ⟨FailsOnly.mapM fun reference _ => ?_, fun _ _ => by simp⟩
    split
    · exact clashFree_familyDomain _ _ _ _ _ _
    · simp

theorem clashFree_allDeclared (values : List Value) (carriers : List Expr) :
    ClashFree (allDeclared registry ctx values carriers) := by
  refine failsOnly_allDeclared fun carrier _ => ?_
  unfold isDeclared
  refine failsOnly_bind.mpr ⟨Expr.clashFree_substitute values carrier, fun e _ => ?_⟩
  split
  · refine failsOnly_bind.mpr ⟨clashFree_resolveIndices _ _ ctx, fun index _ => ?_⟩
    split
    · exact clashFree_declares _ _ index
    · simp
  · simp

theorem clashFree_expand (e : Expr) :
    ClashFree (expand registry ctx e) := by
  unfold expand
  refine failsOnly_bind.mpr ⟨e.clashFree_carriers false, fun carriers _ => ?_⟩
  refine failsOnly_ite.mpr ⟨fun _ => by simp, fun _ => ?_⟩
  have filled : ∀ roles,
      (assignments registry ctx carriers roles []).Ends _ Error.NoClash := fun roles =>
    ends_assignments (P := fun _ => True) (fun assigned _ =>
      (clashFree_roleDomain registry ctx carriers assigned).ends fun _ _ _ _ => trivial)
      roles trivial
  refine (filled _).foldM (fun done _ values _ => ?_) trivial
  simp [clashFree_allDeclared, Expr.clashFree_substitute]

end

end Wildcard

/-! ## Polynomials of trees -/

theorem clashFree_joinPolynomials (source : Expr) (op : Arithmetic) (p q : Polynomial) :
    ClashFree (joinPolynomials source op p q) := by
  cases op with
  | add => exact (p.plain_add q).clashFree
  | sub => exact (p.plain_sub q).clashFree
  | mul => exact (p.plain_mul q).clashFree
  | div =>
    exact failsOnly_ite.mpr ⟨fun _ => clashFree_raise rfl, fun _ => (p.plain_div q).clashFree⟩

theorem clashFree_foldConstant (e : Expr) (ctx : Context) :
    ClashFree (e.foldConstant ctx) :=
  failsOnly_bind.mpr ⟨e.clashFree_evaluate ctx, fun v _ =>
    (Polynomial.plain_ofValue v).clashFree⟩

theorem clashFree_foldReference (registry : Option Model) (name : Value) (indices : List Expr)
    (ctx : Context) : ClashFree (foldReference registry name indices ctx) := by
  simp [foldReference, clashFree_resolveReference]

theorem clashFree_nameLimit (cfg : Config) : ClashFree cfg.nameLimit :=
  clashFree_orUnsupported _

theorem clashFree_constantCondition (e : Expr) (ctx : Context) :
    ClashFree (Compilation.constantCondition e ctx) := by
  unfold Compilation.constantCondition
  refine failsOnly_ite.mpr ⟨fun _ => ?_, fun _ => by simp⟩
  refine failsOnly_bind.mpr ⟨e.clashFree_evaluate ctx, fun value _ => ?_⟩
  split <;> simp

namespace Linearization

theorem clashFree_portionLower (low : Value) : ClashFree (portionLower low) := by
  simp [portionLower]

theorem clashFree_portionUpper (high : Value) : ClashFree (portionUpper high) := by
  simp [portionUpper]

theorem clashFree_orOutOfRange (value : Option Value) : ClashFree (orOutOfRange value) := by
  cases value <;> simp [orOutOfRange]

end Linearization

end LinearProgram
