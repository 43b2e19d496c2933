import LinearProgram.Linearization
import LinearProgram.Proofs.Outcome

/-!
# What arithmetic can fail with

The arithmetic of polynomials, the checks of bounds and the rows of linearizations fail only with a
refusal that has a message and is no clash of names, or because a number is too large (`Plain`).
-/

namespace LinearProgram

/-- A refusal with a message, of a kind that the command line reports and that is about no name; or
a number that is too large. -/
def Error.IsPlain : Error → Prop
  | .refused cause => cause.message?.isSome = true ∧ cause.kind.compileName?.isSome = true
    ∧ cause.kind ≠ .redefinition ∧ cause.kind ≠ .duplicateName
  | .broken .overflow => True
  | .broken _ => False

/-- A computation with no other failures. -/
abbrev Plain {α : Type} (x : Except Error α) : Prop := FailsOnly Error.IsPlain x

section Sequences

variable {α : Type}

@[simp] theorem plain_orOverflow (x : Option α) : Plain (orOverflow x) := by
  cases x <;> simp [orOverflow, Error.IsPlain]

theorem plain_raise {cause : Cause} (plain : (Error.refused cause).IsPlain) :
    Plain (raise cause : Except Error α) := by
  refine (Ends.raise (fun _ => plain) fun none => ?_ : Ends (fun _ => True) _ _).failsOnly
  have worded := plain.1
  rw [none] at worded
  cases worded

end Sequences

/-! ## Polynomials -/

namespace Polynomial

theorem plain_addTerm (key : VarKey) (x : Number) (terms : List (VarKey × Number)) :
    Plain (addTerm key x terms) := by
  induction terms with
  | nil => simp [addTerm]
  | cons _ _ ih => simp [addTerm, ih]

@[simp] theorem plain_add (p q : Polynomial) : Plain (p.add q) := by
  have terms : Plain (q.terms.foldlM (fun terms term => addTerm term.1 term.2 terms) p.terms) :=
    FailsOnly.foldlM (fun terms term _ => plain_addTerm _ _ _) p.terms
  simp [add, terms]

@[simp] theorem plain_scale (p : Polynomial) (x : Number) : Plain (p.scale x) := by
  unfold scale
  exact failsOnly_bind.mpr ⟨FailsOnly.mapM fun term _ => by simp, fun terms _ => by simp⟩

@[simp] theorem plain_neg (p : Polynomial) : Plain p.neg := plain_scale p _

@[simp] theorem plain_sub (p q : Polynomial) : Plain (p.sub q) := by simp [sub]

@[simp] theorem plain_mul (p q : Polynomial) : Plain (p.mul q) := by
  unfold mul
  split
  · simp
  · split
    · simp
    · exact plain_raise ⟨rfl, rfl, nofun, nofun⟩

theorem plain_div (p q : Polynomial) : Plain (p.div q) := by
  unfold div
  split
  · exact plain_raise ⟨rfl, rfl, nofun, nofun⟩
  · split
    · exact plain_raise ⟨rfl, rfl, nofun, nofun⟩
    · simp

@[simp] theorem plain_ofValue (value : Value) : Plain (ofValue value) := by
  unfold ofValue
  split
  · unfold ofNumber
    split
    · exact plain_raise ⟨rfl, rfl, nofun, nofun⟩
    · simp
  · simp
  · simp
  · exact plain_raise ⟨rfl, rfl, nofun, nofun⟩

@[simp] theorem plain_bounds (p : Polynomial) (boundsOf : VarKey → Number × Number) :
    Plain (p.bounds boundsOf) := by
  unfold bounds
  refine failsOnly_bind.mpr ⟨FailsOnly.foldlM (fun bounds term _ => ?_) _, fun ends _ => ?_⟩
  · simp [extendBounds]
  · simp

end Polynomial

/-! ## Kinds, directions and bounds -/

theorem plain_kind (value : Value) : Plain (VariableKind.ofValue value) := by
  unfold VariableKind.ofValue
  split
  · simp
  · exact plain_raise ⟨rfl, rfl, nofun, nofun⟩

theorem plain_direction (value : Value) : Plain (Direction.ofValue value) := by
  unfold Direction.ofValue
  split
  · simp
  · exact plain_raise ⟨rfl, rfl, nofun, nofun⟩

namespace Bound

@[simp] theorem plain_ofNumber (x : Number) : Plain (ofNumber x) := by
  unfold ofNumber
  split
  · exact plain_raise ⟨rfl, rfl, nofun, nofun⟩
  · simp

theorem plain_ofValue (value : Value) : Plain (ofValue value) := by
  unfold ofValue
  split
  · simp
  · split
    · simp
    · exact plain_raise ⟨rfl, rfl, nofun, nofun⟩
  · simp
  · simp
  · exact plain_raise ⟨rfl, rfl, nofun, nofun⟩

theorem plain_check (name : String) (kind : VariableKind) (lower upper : Option Number) :
    Plain (check name kind lower upper) := by
  have whole : ∀ bound, Plain (checkWhole name bound) := by
    intro bound
    unfold checkWhole
    split
    · simp
    · refine failsOnly_bind.mpr ⟨plain_orOverflow _, fun f _ => ?_⟩
      exact failsOnly_ite.mpr ⟨fun _ => plain_raise ⟨rfl, rfl, nofun, nofun⟩, fun _ => by simp⟩
  have given : Plain (raise (.binaryBounds name) : Except Error Unit) :=
    plain_raise ⟨rfl, rfl, nofun, nofun⟩
  have low : Plain (raise (.lowerInfinite name) : Except Error Unit) :=
    plain_raise ⟨rfl, rfl, nofun, nofun⟩
  have high : Plain (raise (.upperInfinite name) : Except Error Unit) :=
    plain_raise ⟨rfl, rfl, nofun, nofun⟩
  have crossed : ∀ l u, Plain (raise (.crossedBounds name l u) : Except Error Unit) :=
    fun l u => plain_raise ⟨rfl, rfl, nofun, nofun⟩
  cases kind <;> cases lower <;> cases upper <;> simp [check, whole, given, low, high, crossed]

end Bound

/-! ## Models and rows -/

namespace Model

@[simp] theorem plain_boundsOf (m : Model) (p : Polynomial) : Plain (m.boundsOf p) :=
  p.plain_bounds _

theorem plain_finiteBoundsOf (m : Model) (p : Polynomial) (operation : String) :
    Plain (m.finiteBoundsOf p operation) := by
  refine failsOnly_bind.mpr ⟨m.plain_boundsOf p, fun ends _ => ?_⟩
  exact failsOnly_ite.mpr ⟨fun _ => by simp, fun _ => plain_raise ⟨rfl, rfl, nofun, nofun⟩⟩

theorem plain_isBoolean (m : Model) (p : Polynomial) : Plain (m.isBoolean p) := by
  have whole : ∀ x, Plain (isWholeCoefficient x) := by
    intro x
    simp [isWholeCoefficient]
  have terms : ∀ terms, Plain (m.areWholeTerms terms) := by
    intro terms
    induction terms with
    | nil => exact trivial
    | cons _ _ ih =>
      unfold areWholeTerms
      split
      · simp
      · simp [whole, ih]
  simp [isBoolean, whole, terms]

end Model

namespace Linearization

@[simp] theorem plain_total (operands : List Polynomial) : Plain (total operands) :=
  FailsOnly.foldlM (fun p q _ => p.plain_add q) _

@[simp] theorem plain_bigM (slack high low : Number) : Plain (bigM slack high low) := by
  simp [bigM]

theorem plain_checkGiven (bound : Option Number) : Plain (checkGiven bound) := by
  cases bound <;> simp [checkGiven]

/-- Rows that are computed from polynomials and numbers alone. -/
def PlainRows (rows : List (Except Error Row)) : Prop := ∀ row ∈ rows, Plain row

theorem plainRows_append {rows others : List (Except Error Row)} :
    PlainRows (rows ++ others) ↔ PlainRows rows ∧ PlainRows others := List.forall_mem_append

theorem plain_oneRow (selectors : List Polynomial) : Plain (oneRow selectors) := by simp [oneRow]

theorem plainRows_absolute (a e : Polynomial) : PlainRows (absoluteRows a e) := by
  simp [PlainRows, absoluteRows]

theorem plainRows_selection {rows : Choice → List (Except Error Row)}
    (selectors : List Polynomial) (cs : List Choice) (plain : ∀ c, PlainRows (rows c)) :
    PlainRows (oneRow selectors :: cs.flatMap rows) :=
  List.forall_mem_cons.mpr
    ⟨plain_oneRow selectors, List.forall_mem_flatMap.mpr fun c _ => plain c⟩

theorem plainRows_operand (tag : String) (rel : Relation) (z : Polynomial) (k : Nat)
    (operands : List Polynomial) : PlainRows (operandRows tag rel z k operands) := by
  induction operands generalizing k with
  | nil => simp [PlainRows, operandRows]
  | cons _ _ ih => exact List.forall_mem_cons.mpr ⟨by simp, ih (k + 1)⟩

theorem plainRows_conjunction (z : Polynomial) (operands : List Polynomial) :
    PlainRows (conjunctionRows z operands) :=
  plainRows_append.mpr ⟨plainRows_operand _ _ z 1 operands, by simp [PlainRows]⟩

theorem plainRows_disjunction (z : Polynomial) (operands : List Polynomial) :
    PlainRows (disjunctionRows z operands) :=
  plainRows_append.mpr ⟨plainRows_operand _ _ z 1 operands, by simp [PlainRows]⟩

theorem plainRows_choice (slack : Number) (z cond : Polynomial) (low high : Number)
    (yes no : Polynomial) (thenBounds elseBounds : Number × Number) :
    PlainRows (choiceRows slack z cond low high yes no thenBounds elseBounds) := by
  simp [PlainRows, choiceRows]

theorem plainRows_segment (k : Nat) (y w : Polynomial) (low high : Value) :
    PlainRows (segmentRows k y w low high) := by
  simp [PlainRows, segmentRows]

theorem plainRows_link (selectors portions : List Polynomial) (e : Polynomial) :
    PlainRows (linkRows selectors portions e) := by
  simp [PlainRows, linkRows, plain_oneRow]

end Linearization

end LinearProgram
