import LinearProgram.Proofs.EvaluationParts

/-!
# Exact data

Values without doubles are exact, and so is the value of a tree of sums, differences and products
over them (`Expr.evaluate_exact`). `Expr.Exact` constrains only the places whose values enter the
arithmetic.
-/

namespace LinearProgram

open List

variable {ctx : Context} {container key v : Value} {x total : Number} {name : String}
  {entries : Entries} {items : List Value} {gens : List GeneratorItem}
  {refuse : Except Error Bool}

/-! ## Values -/

/-- A truth value or an integer. -/
def Number.Exact : Number → Prop
  | .bool _ | .int _ => True
  | .float _ => False

theorem Number.exact_int (n : Int) : (Number.int n).Exact := trivial

namespace Value

mutual

/-- A value in which no double occurs. -/
def Exact : Value → Prop
  | none | str _ | range _ _ _ => True
  | number x | cell x => x.Exact
  | list items | tuple items | set items => ExactItems items
  | foreign _ core listed => Exact core ∧ ExactItems listed
  | table entries => ExactEntries entries
  | record fields => ExactFields fields

def ExactItems : List Value → Prop
  | [] => True
  | item :: rest => Exact item ∧ ExactItems rest

def ExactEntries : List (Value × Value) → Prop
  | [] => True
  | (key, value) :: rest => Exact key ∧ Exact value ∧ ExactEntries rest

def ExactFields : List (String × Value) → Prop
  | [] => True
  | (_, value) :: rest => Exact value ∧ ExactFields rest

end

theorem exactItems_iff : ExactItems items ↔ ∀ v ∈ items, v.Exact := by
  induction items with
  | nil => simp [ExactItems]
  | cons _ _ ih => simp [ExactItems, ih]

theorem exactEntries_iff :
    ExactEntries entries ↔ ∀ entry ∈ entries, entry.1.Exact ∧ entry.2.Exact := by
  induction entries with
  | nil => simp [ExactEntries]
  | cons _ _ ih =>
    rw [ExactEntries, ih, forall_mem_cons, and_assoc]

theorem exactFields_iff {fields : List (String × Value)} :
    ExactFields fields ↔ ∀ entry ∈ fields, entry.2.Exact := by
  induction fields with
  | nil => simp [ExactFields]
  | cons _ _ ih => rw [ExactFields, ih, forall_mem_cons]

theorem exact_int (n : Int) : (int n).Exact := trivial

theorem exact_bool (b : Bool) : (bool b).Exact := trivial

theorem Exact.normalize (exact : v.Exact) : v.normalize.Exact := by
  cases v <;> exact exact

theorem numberPart?_exact (exact : x.Exact) (found : numberPart? x name = some v) : v.Exact := by
  unfold numberPart? at found
  split at found
  · exact absurd exact id
  · exact absurd exact id
  · cases found
  all_goals first | cases found; exact trivial | cases found

theorem exact_of_holds (container : Value) (exact : container.Exact) (held : container.Holds v) :
    v.Exact := by
  match container with
  | list _ | tuple _ => exact exactItems_iff.mp exact v held
  | foreign _ core _ => exact exact_of_holds core exact.1 held
  | table _ =>
    obtain ⟨entry, inside, rfl⟩ := held
    exact (exactEntries_iff.mp exact entry inside).2
  | record _ =>
    obtain ⟨field, inside, rfl⟩ := held
    exact exactFields_iff.mp exact field inside
  | range _ _ _ =>
    obtain ⟨n, rfl⟩ := held
    exact exact_int n
  | number _ | cell _ =>
    obtain ⟨name, found⟩ := held
    exact numberPart?_exact exact found
  | none | str _ | set _ => exact held.elim

theorem exact_of_lists (container : Value) (exact : container.Exact)
    (listed : container.Lists v) : v.Exact := by
  match container with
  | list _ | tuple _ => exact exactItems_iff.mp exact v listed
  | foreign _ core _ =>
    rcases listed with inside | mem
    · exact exact_of_lists core exact.1 inside
    · exact exactItems_iff.mp exact.2 v mem
  | table _ =>
    obtain ⟨entry, inside, rfl⟩ := listed
    exact (exactEntries_iff.mp exact entry inside).1
  | range _ _ _ =>
    obtain ⟨n, rfl⟩ := listed
    exact exact_int n
  | none | number _ | cell _ | str _ | set _ | record _ => exact listed.elim

end Value

/-! ## Numbers -/

namespace Number

variable {x y z : Number}

theorem Exact.toInt? (exact : x.Exact) : ∃ n, x.toInt? = some n := by
  cases x with
  | bool => exact ⟨_, rfl⟩
  | int n => exact ⟨n, rfl⟩
  | float => exact absurd exact id

theorem combine_exact {exactly : Int → Int → Int} {approximately : Float → Float → Float}
    (left : x.Exact) (right : y.Exact) (combined : combine exactly approximately x y = some z) :
    z.Exact := by
  obtain ⟨m, isM⟩ := left.toInt?
  obtain ⟨n, isN⟩ := right.toInt?
  rw [combine, isM, isN] at combined
  cases combined
  exact trivial

theorem Exact.neg (exact : x.Exact) : x.neg.Exact := by
  cases x <;> exact exact

theorem Exact.abs (exact : x.Exact) : x.abs.Exact := by
  cases x <;> exact exact

theorem Exact.maxFirst (left : x.Exact) (right : y.Exact) : (x.maxFirst y).Exact := by
  unfold Number.maxFirst
  split
  · exact right
  · exact left

theorem Exact.minFirst (left : x.Exact) (right : y.Exact) : (x.minFirst y).Exact := by
  unfold Number.minFirst
  split
  · exact right
  · exact left

end Number

theorem applyArithmetic_exact {source : Expr} {op : Arithmetic} {y : Number} (left : x.Exact)
    (right : y.Exact) (noQuotient : op ≠ .div) :
    Gives Number.Exact (applyArithmetic source op x y) := by
  cases op with
  | add | sub | mul =>
    exact ends_orOverflow.mono (fun z => Number.combine_exact left right) fun _ => id
  | div => exact absurd rfl noQuotient

theorem extremum_exact {op : Aggregate} {xs : List Number} (exact : ∀ x ∈ xs, x.Exact) :
    Gives Number.Exact (extremum op xs) := by
  have folded : ∀ {better : Number → Number → Number},
      (∀ {x y : Number}, x.Exact → y.Exact → (better x y).Exact) →
      ∀ (rest : List Number) (x : Number), x.Exact → (∀ y ∈ rest, y.Exact) →
        (rest.foldl better x).Exact := by
    intro better closed rest
    induction rest with
    | nil => exact fun x first _ => first
    | cons _ _ ih =>
      intro x first others
      rw [forall_mem_cons] at others
      exact ih _ (closed first others.1) others.2
  cases xs with
  | nil => exact Tolerant.ends_raise rfl (.inl rfl)
  | cons x rest =>
    rw [forall_mem_cons] at exact
    unfold extremum
    show Number.Exact _
    split
    · exact folded Number.Exact.maxFirst rest x exact.1 exact.2
    · exact folded Number.Exact.minFirst rest x exact.1 exact.2

theorem affine_exact (slope intercept : Int) (exact : x.Exact) :
    Gives Value.Exact (affine (.int slope) (.int intercept) x) := by
  have scaled : Gives Value.Exact ((Value.int slope).mul (.number x)) :=
    ends_orOverflow.bind fun y _ => Number.combine_exact (Number.exact_int slope) exact
  refine scaled.bind fun product times isExact => ?_
  obtain ⟨y, -, done⟩ := bind_eq_ok.mp times
  cases done
  exact ends_orOverflow.bind fun z _ => Number.combine_exact isExact (Number.exact_int intercept)

/-! ## Contexts -/

/-- What a host adds to values with a property has it too: their attributes, and its answers. -/
structure Host.Keeps (host : Host) (post : Value → Prop) : Prop where
  attributes : ∀ {v : Value} {name : String} {w : Value}, post v →
    host.attribute? v name = some w → post w
  answers : ∀ {op : Comparison} {left right w : Value}, host.compare op left right = .ok w → post w

theorem Host.bare_keeps (post : Value → Prop) : Host.bare.Keeps post where
  attributes _ found := by cases found
  answers answered := by cases answered

/-- Parameters that are exact data, in a host that keeps them so. -/
structure Parameters.Exact (params : Parameters) : Prop where
  table : ∀ entry ∈ params.table, entry.2.Exact
  host : params.host.Keeps Value.Exact

/-- A context in which all names stand for exact data. -/
structure Context.Exact (ctx : Context) : Prop where
  bindings : ∀ entry ∈ ctx.bindings, entry.2.Exact
  parameters : ctx.parameters.Exact

namespace Context

variable {ctx : Context}

theorem Exact.bind (exact : ctx.Exact) (name : String) {value : Value} (isExact : value.Exact) :
    (ctx.bind name value).Exact where
  bindings := by
    have put : ∀ {scope : Scope}, (∀ entry ∈ scope, entry.2.Exact) →
        ∀ entry ∈ scope.put name value, entry.2.Exact := by
      intro scope all
      induction scope with
      | nil => simpa [Scope.put] using isExact
      | cons _ _ ih =>
        rw [forall_mem_cons] at all
        rw [Scope.put]
        split
        · exact forall_mem_cons.mpr ⟨isExact, all.2⟩
        · exact forall_mem_cons.mpr ⟨all.1, ih all.2⟩
    exact put exact.bindings
  parameters := exact.parameters

theorem get?_exact {scope : Scope} {value : Value} (exact : ∀ entry ∈ scope, entry.2.Exact)
    (found : scope.get? name = some value) : value.Exact := by
  obtain ⟨entry, known, rfl⟩ := Option.map_eq_some_iff.mp found
  exact exact entry (mem_of_find?_eq_some known)

theorem Exact.resolve (exact : ctx.Exact) (name : String) :
    Gives Value.Exact (ctx.resolve name) := by
  unfold Context.resolve
  split
  case h_1 found => exact (get?_exact exact.bindings found).normalize
  case h_2 =>
    split
    case h_1 found => exact (get?_exact exact.parameters.table found).normalize
    case h_2 => exact Tolerant.ends_raise rfl (.inl rfl)

end Context

/-! ## Trees -/

mutual

/-- A tree without quotients whose data are exact: absolute values are taken of constants, and the
data of piecewise linear functions are integers. If `plain` holds, these functions too are taken of
constants only. -/
def Expr.Exact (plain : Prop) : Expr → Prop
  | .wildcard | .symbol _ | .ref _ _ | .compare _ _ _ | .range _ _ => True
  | .literal value => value.Exact
  | .lookup container _ _ => container.Exact plain
  | .arith op left right => op ≠ .div ∧ left.Exact plain ∧ right.Exact plain
  | .negate operand | .each operand => operand.Exact plain
  | .abs operand => operand.isConstant = true ∧ operand.Exact plain
  | .sum args | .aggregate _ args => ExactTrees plain args
  | .sumOver body gens => body.Exact plain ∧ ExactDomains plain gens
  | .ifThenElse cond yes no =>
    cond.Exact plain ∧ yes.Exact plain ∧ no.Exact plain
  | .piecewise operand breakpoints slopes offsets =>
    operand.Exact plain ∧ (plain → operand.isConstant = true)
      ∧ (∀ x ∈ breakpoints, ∃ i : Int, x = .int i) ∧ (∀ x ∈ slopes, ∃ i : Int, x = .int i)
      ∧ ∀ x ∈ offsets, ∃ i : Int, x = .int i

def ExactTrees (plain : Prop) : List Expr → Prop
  | [] => True
  | e :: rest => e.Exact plain ∧ ExactTrees plain rest

/-- Generators over exact domains; filters may be any. -/
def ExactDomains (plain : Prop) : List GeneratorItem → Prop
  | [] => True
  | .filter _ :: rest => ExactDomains plain rest
  | .generator _ domain :: rest => domain.Exact plain ∧ ExactDomains plain rest

def Datum.Exact (plain : Prop) : Datum → Prop
  | .data value => value.Exact
  | .tree e => e.Exact plain

end

theorem exactTrees_iff {plain : Prop} {trees : List Expr} :
    ExactTrees plain trees ↔ ∀ e ∈ trees, e.Exact plain := by
  induction trees with
  | nil => simp [ExactTrees]
  | cons _ _ ih => rw [ExactTrees, ih, forall_mem_cons]

section Evaluation

variable {plain : Prop}

/-- A tree that is exact has exact values only. -/
def Expr.EvaluatesExactly (e : Expr) : Prop :=
  ∀ {plain : Prop} {ctx : Context}, ctx.Exact → e.Exact plain →
    Gives Value.Exact (e.evaluate ctx)

/-- Generators bind exact values, if their domains' trees have exact values. -/
theorem bindings_exact_of
    (each : ∀ e ∈ gens.flatMap GeneratorItem.children, e.EvaluatesExactly)
    (isExact : ctx.Exact) (exact : ExactDomains plain gens) :
    (bindings gens ctx).Ends Context.Exact fun _ => True := by
  refine ends_bindings (fun gens ctx => ctx.Exact ∧ ExactDomains plain gens
    ∧ ∀ e ∈ gens.flatMap GeneratorItem.children, e.EvaluatesExactly) And.left ?_ ?_
    ⟨isExact, exact, each⟩
  · rintro cond rest ctx ⟨isExact, exact, each⟩
    rw [flatMap_cons, forall_mem_append] at each
    exact ⟨gives_any _, isExact, exact, each.2⟩
  · rintro name domain rest ctx ⟨isExact, exact, each⟩
    rw [flatMap_cons, forall_mem_append] at each
    have values : Gives (∀ v ∈ ·, v.Exact) (domain.domainValues name ctx) := by
      refine ends_domainValues (fun v w isV inside => (Value.exact_of_lists v isV inside).normalize)
        ?_ ?_
      · rintro v rfl
        exact exact.1
      · rintro e rfl
        exact ⟨.inr trivial, fun _ => each.1 e mem_cons_self isExact exact.1⟩
    exact values.mono (fun vs all v mem => ⟨isExact.bind name (all v mem), exact.2, each.2⟩)
      fun _ => id

theorem foldM_ok {α σ : Type} {listing : Listing α} {f : σ → α → Except Error σ} {start r : σ}
    (folded : listing.foldM f start = .ok r) :
    listing.stop = none ∧ listing.items.foldlM f start = .ok r := by
  obtain ⟨result, ran, done⟩ := bind_eq_ok.mp folded
  split at done
  · cases done
  case h_2 complete =>
    cases done
    exact ⟨complete, ran⟩

/-- Trees over exact data have exact values. -/
theorem Expr.evaluate_exact (e : Expr) : e.EvaluatesExactly := by
  induction e using Expr.induction_on_children with
  | step e ih =>
    intro plain ctx isExact exact
    have number : ∀ c ∈ e.children, c.Exact plain →
        Gives Number.Exact (c.evaluateNumber ctx) := fun c mem isC =>
      ends_evaluateNumber (.inr trivial) (ih c mem isExact isC)
    cases e with
    | wildcard | each | ref => exact Ends.raise (fun _ => trivial) fun _ => trivial
    | literal => exact Value.Exact.normalize exact
    | symbol name => exact isExact.resolve name
    | lookup container =>
      exact ends_evaluate_lookup (ih container mem_cons_self isExact exact)
        (fun c k isC _ => Value.ends_lookup
          (fun w held => (Value.exact_of_holds c isC held).normalize) (.inr trivial)
          fun _ _ w _ given => (isExact.parameters.host.attributes isC given).normalize)
        (fun _ => gives_any _) (fun _ _ _ _ _ => trivial) (fun _ _ => trivial) fun _ => gives_any _
    | arith _ left right =>
      obtain ⟨noQuotient, exactLeft, exactRight⟩ := exact
      rw [evaluate]
      refine (number left mem_cons_self exactLeft).bind_number fun x isX => ?_
      refine (number right (by simp [children]) exactRight).bind_number fun y isY => ?_
      exact (applyArithmetic_exact isX isY noQuotient).bind fun z _ isZ => isZ
    | negate operand =>
      rw [evaluate]
      exact (number operand mem_cons_self exact).bind_number fun x isX => isX.neg
    | abs operand =>
      rw [evaluate]
      exact (number operand mem_cons_self exact.2).bind_number fun x isX => isX.abs
    | compare =>
      rw [evaluate]
      refine (gives_any _).bind fun l _ _ => (gives_any _).bind fun r _ _ => ?_
      exact Value.ends_compareBy Value.exact_bool (gives_any _)
        (fun _ _ => isExact.parameters.host.answers) fun _ _ => trivial
    | range =>
      rw [evaluate]
      refine (gives_any _).bind_number fun x _ => (gives_any _).bind_number fun y _ => ?_
      refine (ends_integerRange x y).mono (fun v listed => ?_) fun _ => id
      obtain ⟨items, rfl, whole⟩ := listed
      refine Value.exactItems_iff.mpr fun i mem => ?_
      obtain ⟨n, rfl⟩ := whole i mem
      exact Value.exact_int n
    | sum args =>
      rw [evaluate]
      exact (ends_evaluateSum Number.combine_exact
        (fun e mem => number e mem (exactTrees_iff.mp exact e mem)) (Number.exact_int 0)).bind
        fun x _ isX => isX
    | sumOver body =>
      have listed := bindings_exact_of (fun e known => ih e (mem_cons_of_mem _ known)) isExact
        exact.2
      refine (ends_evaluate_sumOver Number.combine_exact listed
        (fun inner isInner => ends_evaluateNumber (.inr trivial)
          (ih body mem_cons_self isInner exact.1))
        (Number.exact_int 0)).mono (fun v isSum => ?_) fun _ => id
      obtain ⟨x, rfl, isX⟩ := isSum
      exact isX
    | aggregate op args =>
      rw [Expr.Exact, exactTrees_iff] at exact
      cases op with
      | and | or => exact (gives_any _).bind fun b _ _ => Value.exact_bool b
      | max | min =>
        have numbers := ends_evaluateNumbers fun e mem => number e mem (exact e mem)
        refine numbers.bind fun xs _ areX => ?_
        exact (extremum_exact areX).bind fun x _ isX => isX
    | ifThenElse _ yes no =>
      obtain ⟨-, exactThen, exactElse⟩ := exact
      rw [evaluate]
      refine (gives_any _).bind fun c _ _ => (gives_any _).bind fun b _ _ => ?_
      split
      · exact ih yes (by simp [children]) isExact exactThen
      · exact ih no (by simp [children]) isExact exactElse
    | piecewise operand =>
      obtain ⟨exactOperand, -, -, wholeSlopes, wholeIntercepts⟩ := exact
      rw [evaluate]
      refine (number operand mem_cons_self exactOperand).bind_number fun x isX => ?_
      refine ends_evaluatePiecewise (fun v _ => ⟨gives_any _, gives_any _⟩)
        fun slope isSlope intercept isIntercept => ?_
      obtain ⟨s, rfl⟩ := wholeSlopes slope isSlope
      obtain ⟨i, rfl⟩ := wholeIntercepts intercept isIntercept
      exact affine_exact s i isX

/-- The names that generators bind over exact domains have exact values. -/
theorem bindings_exact {inner : Context} (isExact : ctx.Exact)
    (exact : ExactDomains plain gens) (mem : inner ∈ (bindings gens ctx).items) :
    inner.Exact :=
  (bindings_exact_of (fun e _ => e.evaluate_exact) isExact exact).items inner mem

end Evaluation

end LinearProgram
