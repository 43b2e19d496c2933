import LinearProgram.Proofs.Suited

/-!
# How evaluation ends

A tree whose faults are known evaluates to a value of its rank, or fails in a way that the faults
explain (`Expr.evaluate_ends`). What is known of names grows with the bindings (`bindings_ends`).
-/

namespace LinearProgram

open List

variable {gens : List GeneratorItem} {source : Expr} {v : Value}
  {breakpoints offsets slopes : List Value}

/-! ## Parts of an evaluation -/

section Parts

variable {faults : Faults} {n : Nat}

open Faults

/-- What fits is no object of the host, or one that can be a key. -/
theorem Faults.Fits.isKey_of_foreign (fits : faults.Fits n v) (object : v.isForeign = true) :
    v.isKey = true := by
  obtain ⟨k, within, -⟩ := fits
  cases within with
  | key isKey => exact isKey
  | list | tuple | table => cases object

theorem compareValues_ends {host : Host} (op : Comparison) {left right : Value} {m : Nat}
    (isLeft : faults.Fits m left) (isRight : faults.Fits n right) :
    Ends (faults.Fits 0) faults.Explain (compareValues host op left right) := by
  have refused : Ends (faults.Fits 0) faults.Explain
      ((raise (.incomparable left op right) : Except Error Bool).map .bool) :=
    Ends.map (ends_raise rfl (.inl rfl))
  unfold compareValues Host.compareBy
  split
  · rcases host.steady isLeft.isKey_of_foreign isRight.isKey_of_foreign with
      none | ⟨answer, answered, isKey⟩
    · rw [none]
      exact refused
    · rw [answered]
      exact fits_of_isKey isKey
  · split
    · exact fits_of_isKey rfl
    · exact refused

/-- A number, or unsuited data of a finite depth. -/
def Faults.Numeric (faults : Faults) (v : Value) : Prop :=
  (∃ k, v.Within k) ∧ (v.number?.isSome = true ∨ faults.unsuited)

theorem Faults.numeric_number (x : Number) : faults.Numeric (.number x) :=
  ⟨⟨0, .key rfl⟩, .inl rfl⟩

theorem Faults.Numeric.cases (numeric : faults.Numeric v) :
    (∃ x, v = .number x) ∨ faults.unsuited := by
  refine numeric.2.imp_left fun isSome => ?_
  cases v with
  | number x => exact ⟨x, rfl⟩
  | _ => cases isSome

theorem Faults.Numeric.fits (numeric : faults.Numeric v) : faults.Fits 0 v := by
  rcases numeric.cases with ⟨x, rfl⟩ | fault
  · exact fits_of_isKey rfl
  · obtain ⟨k, within⟩ := numeric.1
    exact ⟨k, within, .inr fault⟩

theorem ordered_ends {a b : Value} (test : OrderTest) (left : faults.Numeric a)
    (right : faults.Numeric b) :
    Ends (fun _ => True) faults.Explain (orUnsupported (Value.ordered? test a b)) := by
  refine (ends_orUnsupported ?_).mono (fun _ _ => trivial) fun _ => id
  rcases left.cases with ⟨x, rfl⟩ | fault
  · rcases right.cases with ⟨y, rfl⟩ | fault
    · exact .inl rfl
    · exact .inr fault
  · exact .inr fault

theorem repeatItems_ends {α : Type} (n : Nat) (items : List α) :
    Ends (fun result => ∀ a ∈ result, a ∈ items) faults.Explain (Value.repeatItems n items) := by
  unfold Value.repeatItems
  split
  · exact trivial
  · split
    · exact trivial
    · intro a mem
      obtain ⟨l, isCopy, inside⟩ := mem_flatten.mp mem
      rwa [eq_of_mem_replicate isCopy] at inside

theorem mul_number (v : Value) (x : Number) :
    (∃ y, v = .number y) ∨ v.mul (.number x) = breakDown .unsupported
      ∨ ∃ n, v.mul (.number x) = Value.repeated n v := by
  cases isTimes : x.toInt? with
  | none => cases v <;> simp [Value.mul, Value.times?, isTimes]
  | some n =>
    cases v with
    | number y => exact .inl ⟨y, rfl⟩
    | _ => exact .inr (.inr ⟨n.toNat, by simp [Value.mul, Value.times?, isTimes]⟩)

theorem repeated_ends (n : Nat) (fault : faults.unsuited) {k : Nat} (within : v.Within k) :
    Ends faults.Numeric faults.Explain (v.repeated n) := by
  unfold Value.repeated
  split
  · exact (repeatItems_ends n _).bind fun s _ _ => ⟨⟨0, .key rfl⟩, .inr fault⟩
  case h_2 items =>
    have all : ∀ item ∈ items, item.Within k := by
      intro item mem
      cases within with
      | list all => exact (all item mem).mono (Nat.le_succ _)
      | key isKey => cases isKey
    exact (repeatItems_ends n items).bind fun result _ inside =>
      ⟨⟨k + 1, .list fun item mem => all item (inside item mem)⟩, .inr fault⟩
  case h_3 items =>
    have all : ∀ item ∈ items, item.Within k := by
      intro item mem
      cases within with
      | tuple all => exact (all item mem).mono (Nat.le_succ _)
      | key isKey => exact .key (Value.areKeys_iff.mp isKey item mem)
    exact (repeatItems_ends n items).bind fun result _ inside =>
      ⟨⟨k + 1, .tuple fun item mem => all item (inside item mem)⟩, .inr fault⟩
  · exact fault

theorem mul_ends {slope : Value} (numeric : faults.Numeric slope) (x : Number) :
    Ends faults.Numeric faults.Explain (slope.mul (.number x)) := by
  have number : ∀ y, Ends faults.Numeric faults.Explain ((Value.number y).mul (.number x)) :=
    fun y => ends_orOverflow.bind fun z _ _ => numeric_number z
  rcases numeric.cases with ⟨y, rfl⟩ | fault
  · exact number y
  · rcases mul_number slope x with ⟨y, rfl⟩ | unsupported | ⟨n, repeats⟩
    · exact number y
    · rw [unsupported]
      exact fault
    · rw [repeats]
      obtain ⟨⟨k, within⟩, -⟩ := numeric
      exact repeated_ends n fault within

theorem add_ends {left right : Value} (isLeft : faults.Numeric left)
    (isRight : faults.Numeric right) :
    Ends faults.Numeric faults.Explain (left.add right) := by
  obtain ⟨j, within⟩ := isLeft.1
  obtain ⟨k, within'⟩ := isRight.1
  have unsuited : (∀ x, left ≠ .number x) → faults.unsuited := by
    intro other
    rcases isLeft.cases with ⟨x, isNumber⟩ | fault
    · exact absurd isNumber (other x)
    · exact fault
  unfold Value.add
  split
  · exact ends_orOverflow.bind fun z _ _ => numeric_number z
  · exact ⟨⟨0, .key rfl⟩, .inr (unsuited (by simp))⟩
  case h_3 xs ys =>
    refine ⟨⟨max j k + 1,
      .list (forall_mem_append.mpr ⟨fun v mem => ?_, fun v mem => ?_⟩)⟩,
      .inr (unsuited (by simp))⟩
    · cases within with
      | list all => exact (all v mem).mono (by omega)
      | key isKey => cases isKey
    · cases within' with
      | list all => exact (all v mem).mono (by omega)
      | key isKey => cases isKey
  case h_4 xs ys =>
    refine ⟨⟨max j k + 1,
      .tuple (forall_mem_append.mpr ⟨fun v mem => ?_, fun v mem => ?_⟩)⟩,
      .inr (unsuited (by simp))⟩
    · cases within with
      | tuple all => exact (all v mem).mono (by omega)
      | key isKey => exact .key (Value.areKeys_iff.mp isKey v mem)
    · cases within' with
      | tuple all => exact (all v mem).mono (by omega)
      | key isKey => exact .key (Value.areKeys_iff.mp isKey v mem)
  case h_5 other _ _ _ =>
    rcases isLeft.cases with ⟨x, rfl⟩ | fault
    · rcases isRight.cases with ⟨y, rfl⟩ | fault
      · exact absurd rfl (other x y rfl)
      · exact fault
    · exact fault

theorem evaluatePiecewise_ends
    (numeric : ∀ v ∈ breakpoints ++ slopes ++ offsets, faults.Numeric v) (x : Number) :
    Ends (faults.Fits 0) faults.Explain (evaluatePiecewise breakpoints slopes offsets x) := by
  rw [forall_mem_append, forall_mem_append] at numeric
  obtain ⟨⟨points, isSlope⟩, isIntercept⟩ := numeric
  refine ends_evaluatePiecewise (fun v mem =>
    ⟨ordered_ends .lessEq (points v mem) (numeric_number x),
      ordered_ends .lessEq (numeric_number x) (points v mem)⟩) fun s mem i mem' => ?_
  exact (mul_ends (isSlope s mem) x).bind fun y _ isY =>
    (add_ends isY (isIntercept i mem')).mono (fun v isV => isV.fits) fun _ => id

end Parts

/-! ## Trees -/

/-- A tree that is evaluated as it stands, with its faults. -/
structure Expr.Readable (faults : Faults) (ranks : Ranks) (e : Expr) : Prop where
  formed : e.AllFormed faults.attributes
  suited : e.isSuited ranks = true ∨ faults.unsuited
  closed : e.mentionsReference = false ∨ faults.openCondition

/-- The data of a piecewise linear function are numbers. -/
theorem Expr.numeric_of_piecewise {faults : Faults} {ranks : Ranks} {operand : Expr}
    (formed : (piecewise operand breakpoints slopes offsets).AllFormed faults.attributes)
    (suited : (piecewise operand breakpoints slopes offsets).isSuited ranks = true
      ∨ faults.unsuited) : ∀ v ∈ breakpoints ++ slopes ++ offsets, faults.Numeric v := by
  obtain ⟨-, -, layered⟩ := (allFormed_iff.mp formed).1
  intro v mem
  refine ⟨⟨_, layered v mem⟩, suited.imp_left fun suited => ?_⟩
  rw [isSuited, Bool.and_eq_true] at suited
  exact all_eq_true.mp suited.2 v mem

/-- How the evaluation of a tree ends, wherever it is readable. -/
def Expr.EndsWell (e : Expr) : Prop :=
  ∀ {faults : Faults} {ranks : Ranks} {ctx : Context}, e.Readable faults ranks →
    ctx.Fits faults ranks →
    Ends (faults.Fits (e.rank ranks)) faults.Explain (e.evaluate ctx)

namespace Expr

variable {faults : Faults} {ranks : Ranks} {ctx : Context} {e : Expr} {trees : List Expr}

theorem named_of_suited (suited : e.isSuited ranks = true ∨ faults.unsuited) :
    Worded faults.Explain e :=
  suited.imp_left (isSome_text e)

/-- Whether names are bound on the way to the subtrees of a node. -/
def binds : Expr → Bool
  | sumOver _ _ => true
  | _ => false

theorem isSuited_child (suited : e.isSuited ranks = true) (plain : e.binds = false) {c : Expr}
    (mem : c ∈ e.children) : c.isSuited ranks = true := by
  cases e with
  | sumOver => cases plain
  | wildcard | literal | symbol => cases mem
  | ref =>
    simp only [isSuited, Bool.and_eq_true] at suited
    exact areSuited_iff.mp suited.1.2 c mem
  | sum args | aggregate op args => exact areSuited_iff.mp suited c mem
  | lookup | arith | compare | range | ifThenElse | negate | each | abs | piecewise =>
    simp only [isSuited, Bool.and_eq_true] at suited
    simp only [children, mem_cons, not_mem_nil, or_false] at mem
    grind

theorem Readable.child (readable : e.Readable faults ranks) (plain : e.binds = false) {c : Expr}
    (mem : c ∈ e.children) : c.Readable faults ranks where
  formed := readable.formed.child mem
  suited := readable.suited.imp_left fun suited => isSuited_child suited plain mem
  closed := readable.closed.imp_left fun closed => any_walk_of_child closed mem

theorem Readable.named (readable : e.Readable faults ranks) : Worded faults.Explain e :=
  named_of_suited readable.suited

/-- What generators are made of. Domains are checked for decision variables before they are
evaluated, and only filters are not. -/
structure ItemsReadable (faults : Faults) (ranks : Ranks) (gens : List GeneratorItem) :
    Prop where
  layered : ∀ item ∈ gens, item.Layered
  formed : ∀ e ∈ gens.flatMap GeneratorItem.children, e.AllFormed faults.attributes
  suited : itemsSuited ranks gens = true ∨ faults.unsuited
  closed : gens.any GeneratorItem.isOpenFilter = false ∨ faults.openCondition

theorem ItemsReadable.tail {item : GeneratorItem}
    (readable : ItemsReadable faults ranks (item :: gens)) :
    ItemsReadable faults (ranks.after item) gens := by
  obtain ⟨layered, formed, suited, closed⟩ := readable
  rw [flatMap_cons, forall_mem_append] at formed
  rw [any_cons, Bool.or_eq_false_iff] at closed
  rw [itemsSuited, Bool.and_eq_true] at suited
  exact ⟨(forall_mem_cons.mp layered).2, formed.2, suited.imp_left And.right,
    closed.imp_left And.right⟩

/-- The contexts that generators lead to fit, if evaluating the generators' trees ends well. -/
theorem bindings_ends_of (each : ∀ e ∈ gens.flatMap GeneratorItem.children, e.EndsWell)
    (readable : ItemsReadable faults ranks gens) (fits : ctx.Fits faults ranks) :
    (bindings gens ctx).Ends
      (·.Fits faults (ranks.behind gens)) faults.Explain := by
  -- the ranks change along the generators, and lead to the same ones behind all of them
  refine ends_bindings (fun items ctx => ∃ here, ItemsReadable faults here items
    ∧ ctx.Fits faults here ∧ here.behind items = ranks.behind gens
    ∧ ∀ e ∈ items.flatMap GeneratorItem.children, e.EndsWell) ?_ ?_ ?_
    ⟨ranks, readable, fits, rfl, each⟩
  · rintro ctx ⟨here, -, fits, same, -⟩
    exact same ▸ fits
  · rintro cond rest ctx ⟨here, readable, fits, same, each⟩
    rw [flatMap_cons, forall_mem_append] at each
    have isReadable : cond.Readable faults here := by
      obtain ⟨-, formed, suited, closed⟩ := readable
      rw [any_cons, Bool.or_eq_false_iff] at closed
      rw [itemsSuited, Bool.and_eq_true] at suited
      exact ⟨formed cond mem_cons_self, suited.imp_left And.left, closed.imp_left And.left⟩
    exact ⟨failsOnly_filterVerdict isReadable.named
      (each.1 cond mem_cons_self isReadable fits).failsOnly, here, readable.tail, fits, same,
      each.2⟩
  · rintro name domain rest ctx ⟨here, readable, fits, same, each⟩
    rw [flatMap_cons, forall_mem_append] at each
    have suited := readable.suited
    rw [itemsSuited, Bool.and_eq_true] at suited
    have values : Ends (∀ v ∈ ·, faults.Fits (domain.rank here - 1) v) faults.Explain
        (domain.domainValues name ctx) := by
      refine ends_domainValues (fun v w (isFit : faults.Fits (domain.rank here) v) listed =>
        (isFit.of_lists listed).normalize) ?_ ?_
      · rintro v rfl
        exact .of_within (readable.layered _ mem_cons_self)
      · rintro e rfl
        refine ⟨named_of_suited (suited.imp_left And.left), fun constant => ?_⟩
        exact each.1 e mem_cons_self ⟨readable.formed e mem_cons_self, suited.imp_left And.left,
          .inl (mentionsReference_of_isConstant constant)⟩ fits
    exact values.mono (fun vs areFit v mem =>
      ⟨_, readable.tail, fits.bind name (areFit v mem), same, each.2⟩) fun _ => id

theorem Readable.items {body : Expr} (readable : (sumOver body gens).Readable faults ranks) :
    ItemsReadable faults ranks gens where
  layered := (allFormed_iff.mp readable.formed).1
  formed e mem := readable.formed.child (mem_cons_of_mem _ mem)
  suited := readable.suited.imp_left fun suited => by
    rw [isSuited, Bool.and_eq_true] at suited
    exact suited.1
  closed := readable.closed.imp_left fun closed => by
    rw [any_eq_false]
    intro item mem isOpen
    cases item with
    | generator => cases isOpen
    | filter cond =>
      have inside : cond ∈ (sumOver body gens).children :=
        mem_cons_of_mem _ (mem_flatMap.mpr ⟨_, mem, mem_cons_self⟩)
      rw [GeneratorItem.isOpenFilter, mentionsReference,
        any_walk_of_child closed inside] at isOpen
      cases isOpen

theorem Readable.body {body : Expr} (readable : (sumOver body gens).Readable faults ranks) :
    body.Readable faults (ranks.behind gens) where
  formed := readable.formed.child mem_cons_self
  suited := readable.suited.imp_left fun suited => by
    rw [isSuited, Bool.and_eq_true] at suited
    exact suited.2
  closed := readable.closed.imp_left fun closed => any_walk_of_child closed mem_cons_self

/-- **Evaluation.** A tree has a value of its rank, or fails as its faults explain. -/
theorem evaluate_ends (e : Expr) : e.EndsWell := by
  induction e using Expr.induction_on_children with
  | step e ih =>
    intro faults ranks ctx readable fits
    have inside : e.binds = false → ∀ c ∈ e.children, Worded faults.Explain c
        ∧ Ends (faults.Fits (c.rank ranks)) faults.Explain
          (c.evaluate ctx) := fun plain c mem =>
      ⟨(readable.child plain mem).named, ih c mem (readable.child plain mem) fits⟩
    have reads : e.binds = false → ∀ c ∈ e.children,
        FailsOnly faults.Explain (c.evaluateNumber ctx) := fun plain c mem =>
      (ends_evaluateNumber (inside plain c mem).1 (inside plain c mem).2).failsOnly
    have number : ∀ x, faults.Fits 0 (.number x) := fun x => Faults.fits_of_isKey rfl
    cases e with
    | wildcard => exact Faults.ends_raise rfl (.inl rfl)
    | each =>
      exact Faults.ends_raise_of readable.named rfl fun text isText => by
        simp [Cause.message?, isText]
    | ref =>
      refine Ends.raise (fun isSome => ⟨isSome, .inr ⟨?_, _, rfl⟩⟩) fun isNone => ?_
      · rcases readable.closed with closed | fault
        · rw [mentionsReference, any_walk] at closed
          cases closed
        · exact fault
      · rcases readable.named with isSome | fault
        · obtain ⟨text, isText⟩ := Option.isSome_iff_exists.mp isSome
          simp [Cause.message?, isText] at isNone
        · exact fault
    | literal value =>
      have layered : value.Layered := (allFormed_iff.mp readable.formed).1
      exact (Faults.Fits.of_within layered).normalize
    | symbol name => exact fits.resolve_ends name
    | lookup container key dot =>
      have isKey : key.keyRank ranks = 0 ∨ faults.unsuited :=
        readable.suited.imp_left fun suited => by
        simp only [isSuited, Bool.and_eq_true, beq_iff_eq] at suited
        exact suited.2
      -- a dotted step reads a bare name, and that is no attribute of the host
      have dotted : dot = true → ∃ name, key = symbol name ∧ name ∉ faults.attributes :=
        (allFormed_iff.mp readable.formed).1
      have looked (c k : Value) (isFit : faults.Fits (container.rank ranks) c)
          (isKey : (k.isKey = true ∨ faults.unsuited)
            ∧ (dot = true → ∀ name, k = .str name → name ∉ faults.attributes)) :
          Ends (faults.Fits (container.rank ranks - 1)) faults.Explain
            (c.lookup ctx.parameters.host k dot) :=
        Value.ends_lookup (fun w held => (isFit.of_holds held).normalize) isKey.1
          fun isDotted name w isName given => absurd (ctx.parameters.host.named given)
            (fits.host ▸ isKey.2 isDotted name isName)
      refine ends_evaluate_lookup (inside rfl container (by simp [children])).2 looked
        (fun _ => Faults.ends_raise rfl (.inl rfl)) ?_ (fun name isName => ⟨.inl rfl, ?_⟩)
        fun other => ?_
      · rintro name v rfl plain found
        obtain ⟨n, known, isFit⟩ := fits.bound_value found
        rw [keyRank, known] at isKey
        exact ⟨(isFit.mono (isKey.imp_left Nat.le_of_eq)).normalize.isKey,
          fun isDotted => by rw [plain] at isDotted; cases isDotted⟩
      · rintro isDotted _ ⟨⟩
        obtain ⟨name', isName', silent⟩ := dotted isDotted
        cases isName.symm.trans isName'
        exact silent
      · have same : key.rank ranks = key.keyRank ranks := by
          cases key with
          | symbol name => exact absurd rfl (other name)
          | _ => rfl
        refine (inside rfl key (by simp [children])).2.mono (fun v isFit => ⟨?_, ?_⟩) fun _ => id
        · exact (isFit.mono (isKey.imp_left fun zero => Nat.le_of_eq (same.trans zero))).isKey
        · intro isDotted
          obtain ⟨name, isName, -⟩ := dotted isDotted
          exact absurd isName (other name)
    | arith op left right =>
      rw [Expr.evaluate]
      refine (reads rfl left (by simp [children])).bind_number fun x _ => ?_
      refine (reads rfl right (by simp [children])).bind_number fun y _ => ?_
      exact (failsOnly_applyArithmetic readable.named op x y).bind fun z _ _ => number z
    | negate operand | abs operand =>
      rw [Expr.evaluate]
      exact (reads rfl operand (by simp [children])).bind_number fun x _ => number _
    | compare op left right =>
      rw [Expr.evaluate]
      refine (inside rfl left (by simp [children])).2.bind fun v _ isLeft => ?_
      refine (inside rfl right (by simp [children])).2.bind fun w _ isRight => ?_
      exact compareValues_ends op isLeft isRight
    | range start stop =>
      rw [Expr.evaluate]
      refine (reads rfl start (by simp [children])).bind_number fun x _ => ?_
      refine (reads rfl stop (by simp [children])).bind_number fun y _ => ?_
      refine (ends_integerRange x y).mono (fun v listed => ?_) fun _ => id
      obtain ⟨items, rfl, whole⟩ := listed
      refine .of_within (.list fun i mem => ?_)
      obtain ⟨n, rfl⟩ := whole i mem
      exact .key rfl
    | sum =>
      rw [Expr.evaluate]
      exact Ends.bind (ends_evaluateSum (fun _ _ _ => trivial) (reads rfl) trivial)
        fun x _ _ => number x
    | sumOver body gens =>
      have listed := bindings_ends_of (fun e mem => ih e (mem_cons_of_mem _ mem))
        readable.items fits
      have total := ends_evaluate_sumOver (fun _ _ _ => trivial) listed (fun inner isFit =>
        (ends_evaluateNumber readable.body.named
          (ih body mem_cons_self readable.body isFit)).failsOnly) trivial
      refine total.mono (fun v isSum => ?_) fun _ => id
      obtain ⟨x, rfl, -⟩ := isSum
      exact number x
    | aggregate op =>
      cases op with
      | and => exact (failsOnly_evaluateAll (inside rfl)).bind fun b _ _ => Faults.fits_of_isKey rfl
      | or => exact (failsOnly_evaluateAny (inside rfl)).bind fun b _ _ => Faults.fits_of_isKey rfl
      | max | min =>
        refine (ends_evaluateNumbers (reads rfl)).bind fun xs _ _ => ?_
        exact (failsOnly_extremum _ xs).bind fun x _ _ => number x
    | ifThenElse cond yes no =>
      obtain ⟨named, isCond⟩ := inside rfl cond (by simp [children])
      rw [Expr.evaluate]
      refine isCond.bind fun v _ _ => (failsOnly_requireTruth named v).bind fun b _ _ => ?_
      split
      · exact (inside rfl yes (by simp [children])).2.mono
          (fun v isFit => isFit.mono (.inl (Nat.le_max_left _ _))) fun _ => id
      · exact (inside rfl no (by simp [children])).2.mono
          (fun v isFit => isFit.mono (.inl (Nat.le_max_right _ _))) fun _ => id
    | piecewise operand =>
      rw [Expr.evaluate]
      refine (reads rfl operand (by simp [children])).bind_number fun x _ => ?_
      exact evaluatePiecewise_ends (numeric_of_piecewise readable.formed readable.suited) x

end Expr

/-- A loop ends, or fails as the faults explain. -/
theorem bindings_ends {faults : Faults} {ranks : Ranks} {ctx : Context}
    (readable : Expr.ItemsReadable faults ranks gens) (fits : ctx.Fits faults ranks) :
    (bindings gens ctx).Ends (·.Fits faults (ranks.behind gens)) faults.Explain :=
  Expr.bindings_ends_of (fun e _ => e.evaluate_ends) readable fits

end LinearProgram
