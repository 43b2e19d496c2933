import LinearProgram.Proofs.Uniform

/-!
# Statements over a domain in two parts

If the first generator ranges over a list, the bindings are those over a first part of it followed
by those over the rest (`bindings_append`). So one statement over the list and two over its parts
build the same model (`applyStatement_concatenation`).
-/

namespace LinearProgram

open List

variable {m m' : Model} {gens : List GeneratorItem}

/-! ## Listings -/

namespace Listing

variable {α β : Type}

/-- One listing after another; the second is not reached if the first ends early. -/
def append (first second : Listing α) : Listing α :=
  match first.stop with
  | some _ => first
  | none => ⟨first.items ++ second.items, second.stop⟩

theorem append_of_stop {first : Listing α} {e : Error} (stopped : first.stop = some e)
    (second : Listing α) : first.append second = first := by
  rw [append, stopped]

theorem chain_append (parts : α → Listing β) (xs ys : List α) :
    chain parts (xs ++ ys) = (chain parts xs).append (chain parts ys) := by
  induction xs with
  | nil => rfl
  | cons a rest ih =>
    rw [cons_append, chain, chain]
    cases ended : (parts a).stop with
    | some => rw [append_of_stop ended]
    | none =>
      rw [ih]
      unfold append
      cases (chain parts rest).stop with
      | some => rfl
      | none => simp

end Listing

/-! ## Domains -/

/-- How a list is given as a domain: as data, kept as a list or as a tuple, or as a literal tree. -/
inductive ListForm where
  | list | tuple | literal

def ListForm.domain : ListForm → List Value → Datum
  | list, items => .data (.list items)
  | tuple, items => .data (.tuple items)
  | literal, items => .tree (.literal (.list items))

theorem ListForm.domainValues (form : ListForm) (items : List Value) (name : String)
    (ctx : Context) :
    (form.domain items).domainValues name ctx = .ok (items.map Value.normalize) := by
  cases form with
  | list | tuple => rfl
  | literal =>
    have constant : (Expr.literal (.list items)).isConstant = true := by
      rw [Expr.isConstant_eq]
      rfl
    rw [domain, Datum.domainValues, if_pos constant]
    rfl

section Bindings

variable (form : ListForm) (conditions : List Expr) (name : String) (rest : List GeneratorItem)

/-- Binding steps whose first generator ranges over a list; only conditions stand before it. -/
def rangingOver (items : List Value) : List GeneratorItem :=
  conditions.map .filter ++ .generator name (form.domain items) :: rest

/-- The bindings over a list in two parts. -/
theorem bindings_append (xs ys : List Value) (ctx : Context) :
    bindings (rangingOver form conditions name rest (xs ++ ys)) ctx
      = (bindings (rangingOver form conditions name rest xs) ctx).append
        (bindings (rangingOver form conditions name rest ys) ctx) := by
  unfold rangingOver
  induction conditions with
  | nil =>
    simp only [map_nil, nil_append, bindings, ListForm.domainValues, map_append]
    exact Listing.chain_append _ _ _
  | cons cond _ ih =>
    simp only [map_cons, cons_append, bindings]
    cases filterVerdict cond (cond.evaluate ctx) with
    | error => rfl
    | ok verdict =>
      cases verdict with
      | false => rfl
      | true => exact ih

/-- The index values of a binding do not depend on the domains. -/
theorem indexValues_rangingOver (xs ys : List Value) (ctx : Context) :
    indexValues (rangingOver form conditions name rest xs) ctx
      = indexValues (rangingOver form conditions name rest ys) ctx := by
  simp only [indexValues, rangingOver, filterMap_append, filterMap_cons]
  rfl

end Bindings

/-! ## Collecting -/

namespace Assembly

variable {α β : Type} {step : α → Assembly (List β)}

/-- Run a step for each item of a listing and put the results together. -/
def collect (listing : Listing α) (step : α → Assembly (List β)) : Assembly (List β) :=
  foldListing listing (fun done a => do pure (done ++ (← step a))) []

theorem foldlM_collect (step : α → Assembly (List β)) (l : List α) (done : List β) :
    l.foldlM (fun done a => do pure (done ++ (← step a))) done
      = (do pure (done ++ (← l.foldlM (fun done a => do pure (done ++ (← step a))) []))) := by
  induction l generalizing done with
  | nil => simp
  | cons _ _ ih =>
    simp only [foldlM_cons, bind_assoc, pure_bind]
    refine bind_congr fun new => ?_
    rw [ih (done ++ new), ih ([] ++ new)]
    simp only [bind_assoc, pure_bind, nil_append, append_assoc]

theorem collect_append (first second : Listing α) (step : α → Assembly (List β)) :
    collect (first.append second) step
      = (do
        let xs ← collect first step
        let ys ← collect second step
        pure (xs ++ ys)) := by
  unfold collect foldListing
  cases ended : first.stop with
  | some =>
    rw [Listing.append_of_stop ended, ended]
    simp only [bind_assoc]
    rfl
  | none =>
    have whole : first.append second = ⟨first.items ++ second.items, second.stop⟩ := by
      rw [Listing.append, ended]
    rw [whole]
    simp only [foldlM_append, bind_assoc, pure_bind]
    refine bind_congr fun xs => ?_
    rw [foldlM_collect step second.items xs]
    simp only [bind_assoc, pure_bind]
    refine bind_congr fun ys => ?_
    cases second.stop with
    | some | none => rfl

section

variable {cfg : Config}
  (composed : ∀ a, Operates cfg (fun _ => True) (step a))
include composed

theorem uniform_collect (listing : Listing α) : Uniform (collect listing step) :=
  .of_composed (.foldListing (fun _ a => (composed a).bind fun _ => .pure _)
    listing.failsOnly_any [])

theorem leads_collect_append {first second : Listing α} {m m' : Model} {all : List β} :
    Leads (collect (first.append second) step) m all m'
      ↔ ∃ xs between ys, Leads (collect first step) m xs between
        ∧ Leads (collect second step) between ys m' ∧ xs ++ ys = all := by
  have later : ∀ xs, Uniform (do pure (xs ++ (← collect second step))) :=
    fun xs => (uniform_collect composed second).bind fun _ => Uniform.pure
  rw [collect_append, Uniform.leads_bind later]
  simp only [Uniform.leads_bind fun _ => Uniform.pure, leads_pure]
  constructor
  · rintro ⟨xs, between, here, ys, _, there, joined, rfl⟩
    exact ⟨xs, between, ys, here, there, joined⟩
  · rintro ⟨xs, between, ys, here, there, joined⟩
    exact ⟨xs, between, here, ys, m', there, joined, rfl⟩

end

end Assembly

/-! ## Statements -/

namespace Compilation

/-- A statement that declares something for each binding, without its binding steps. -/
inductive Family where
  | columns (name kind : Value) (lower upper : Datum) (desc : Value)
  | rows (op : Comparison) (left right : Expr) (desc : Value)

def Family.over : Family → List GeneratorItem → Statement
  | columns name kind lower upper desc, gens =>
    .variableFamily name gens kind lower upper desc
  | rows op left right desc, gens =>
    .constraintFamily op left right gens desc

/-- What two statements of one kind added, together. -/
def Added.append : Added → Added → Added
  | columns xs, columns ys => columns (xs ++ ys)
  | rows xs, rows ys => rows (xs ++ ys)
  | first, _ => first

/-- Lists that are handed on as what a statement added are joined as such. -/
theorem exists_append_iff {β : Type} {wrap : List β → Added}
    (joins : ∀ xs ys, (wrap xs).append (wrap ys) = wrap (xs ++ ys))
    {first second : Model → List β → Model → Prop} {m m' : Model} {added : Added} :
    (∃ all last, (∃ xs between ys, first m xs between ∧ second between ys last ∧ xs ++ ys = all)
        ∧ wrap all = added ∧ last = m')
      ↔ ∃ begun between more, (∃ xs last, first m xs last ∧ wrap xs = begun ∧ last = between)
        ∧ (∃ ys last, second between ys last ∧ wrap ys = more ∧ last = m')
        ∧ begun.append more = added := by
  constructor
  · rintro ⟨_, _, ⟨xs, between, ys, here, there, rfl⟩, rfl, rfl⟩
    exact ⟨wrap xs, between, wrap ys, ⟨xs, between, here, rfl, rfl⟩, ⟨ys, _, there, rfl, rfl⟩,
      joins xs ys⟩
  · rintro ⟨_, _, _, ⟨xs, between, here, rfl, rfl⟩, ⟨ys, _, there, rfl, rfl⟩, rfl⟩
    exact ⟨xs ++ ys, _, ⟨xs, between, ys, here, there, rfl⟩, (joins xs ys).symm, rfl⟩

section Variables

variable (cfg : Config) (params : Parameters) (name kind : Value) (lower upper : Datum)
  (desc : Value)

/-- Declare the variable of one binding, under an index. -/
def variableAt (index : Context → List Value) (ctx : Context) : Assembly (List Variable) := do
  let low ← boundValue ctx lower
  let high ← boundValue ctx upper
  let text ← describe desc ctx
  let v ← Assembly.declareVariable cfg name (index ctx) kind low high text false
  pure [v]

theorem composed_variableAt (index : Context → List Value) (ctx : Context) :
    Operates cfg (fun _ => True)
      (variableAt cfg name kind lower upper desc index ctx) := by
  refine Composed.compute.bind fun low => Composed.compute.bind fun high => ?_
  refine Composed.compute.bind fun text => ?_
  exact (Composed.declareVariable fun _ _ _ _ => trivial).bind fun _ => .pure _

/-- Declaring variables is collecting them, in a transaction. -/
theorem leads_addVariables {declared : List Variable} :
    Leads (addVariables cfg params name gens kind lower upper desc) m declared
        m'
      ↔ Leads (Assembly.collect (bindings gens { parameters := params })
        (variableAt cfg name kind lower upper desc (indexValues gens))) m declared
        m' := by
  have uniform := Assembly.uniform_collect (composed_variableAt cfg name kind lower upper
    desc (indexValues gens)) (bindings gens { parameters := params })
  have isCollected : addVariables cfg params name gens kind lower upper desc
      = (do
        let declared ← Assembly.transaction
          (Assembly.collect (bindings gens { parameters := params })
          (variableAt cfg name kind lower upper desc (indexValues gens)))
        Assembly.report [⟨.debug, .compiler,
          "Declared " ++ toString declared.length ++ " instance(s) of " ++ name.text⟩]
        pure declared) := by
    simp only [addVariables, Assembly.collect, variableAt, bind_assoc, pure_bind]
  rw [isCollected, Uniform.leads_bind fun _ => Uniform.report.bind fun _ => Uniform.pure]
  simp only [Uniform.leads_bind fun _ => Uniform.pure, leads_report, leads_pure,
    uniform.leads_transaction]
  constructor
  · rintro ⟨_, _, collected, _, _, rfl, rfl, rfl⟩
    exact collected
  · exact fun collected => ⟨declared, m', collected, (), m', rfl, rfl, rfl⟩

end Variables

section Constraints

variable (cfg : Config) (params : Parameters) (op : Comparison) (left right : Expr)
  (desc : Value)

/-- Declare the constraint of one binding, if it is not left out. -/
def rowsAt (gens : List GeneratorItem) (ctx : Context) : Assembly (List Constraint) := do
  pure (← addConstraintInstance cfg op left right gens desc ctx).toList

theorem composed_rowsAt (gens : List GeneratorItem) (ctx : Context) :
    Operates cfg (fun _ => True)
      (rowsAt cfg op left right desc gens ctx) :=
  Composed.addConstraintInstance.bind fun _ => .pure _

/-- A constraint is declared alike for binding steps that give a context the same index. -/
theorem rowsAt_congr {gens' : List GeneratorItem} {ctx : Context}
    (same : indexValues gens ctx = indexValues gens' ctx) :
    rowsAt cfg op left right desc gens ctx
      = rowsAt cfg op left right desc gens' ctx := by
  simp only [rowsAt, addConstraintInstance, constraintLabel, same]

theorem leads_addConstraints {declared : List Constraint} :
    Leads (addConstraints cfg params op left right gens desc) m declared m'
      ↔ Leads (Assembly.collect (bindings gens { parameters := params })
        (rowsAt cfg op left right desc gens)) m declared m' := by
  have uniform := Assembly.uniform_collect (composed_rowsAt cfg op left right desc
    gens) (bindings gens { parameters := params })
  have isCollected : addConstraints cfg params op left right gens desc
      = Assembly.transaction (Assembly.collect (bindings gens { parameters := params })
        (rowsAt cfg op left right desc gens)) := by
    simp only [addConstraints, Assembly.collect, rowsAt, bind_assoc, pure_bind]
    congr
    funext done ctx
    refine bind_congr fun new => ?_
    cases new <;> simp
  rw [isCollected, uniform.leads_transaction]

end Constraints

section Statements

variable (cfg : Config) (params : Parameters) (replace : Bool) (family : Family)
  (form : ListForm) (conditions : List Expr) (name : String) (rest : List GeneratorItem)
  (xs ys : List Value)

/-- Between models, a statement over a list in two parts is two statements. -/
theorem leads_applyStatement {added : Added} :
    Leads (applyStatement cfg params replace
        (family.over (rangingOver form conditions name rest (xs ++ ys)))) m added m'
      ↔ ∃ first between second,
        Leads (applyStatement cfg params replace
          (family.over (rangingOver form conditions name rest xs))) m first between
        ∧ Leads (applyStatement cfg params replace
          (family.over (rangingOver form conditions name rest ys))) between second m'
        ∧ first.append second = added := by
  have index : ∀ items, indexValues (rangingOver form conditions name rest items)
      = indexValues (rangingOver form conditions name rest []) := fun items =>
    funext fun ctx => indexValues_rangingOver form conditions name rest items [] ctx
  cases family with
  | columns family kind lower upper desc =>
    simp only [Family.over, applyStatement, Uniform.leads_bind fun _ => Uniform.pure, leads_pure,
      leads_addVariables, bindings_append, index,
      Assembly.leads_collect_append (composed_variableAt cfg family kind lower upper
        desc _)]
    exact exists_append_iff fun _ _ => rfl
  | rows op left right desc =>
    have rows : ∀ items, rowsAt cfg op left right desc
          (rangingOver form conditions name rest items)
        = rowsAt cfg op left right desc (rangingOver form conditions name rest []) :=
      fun items => funext fun ctx => rowsAt_congr cfg op left right desc
        (congrFun (index items) ctx)
    simp only [Family.over, applyStatement, Uniform.leads_bind fun _ => Uniform.pure, leads_pure,
      leads_addConstraints, bindings_append, rows,
      Assembly.leads_collect_append (composed_rowsAt cfg op left right desc _)]
    exact exists_append_iff fun _ _ => rfl

/-- **Statements are additive over the parts of a domain.** From every store, a variable or
constraint statement whose first generator ranges over `xs ++ ys` succeeds if and only if the same
statement over `xs` and then over `ys` do. Then both ways build the same model, with the same order,
names and counters, and the one statement returns what the two return, put together. -/
theorem applyStatement_concatenation (s : Store) (added : Added) (m : Model) :
    let stmt := fun items => family.over (rangingOver form conditions name rest items)
    (∃ s', (applyStatement cfg params replace (stmt (xs ++ ys))).run s = (.ok added, s')
        ∧ s'.model = m)
      ↔ ∃ first s₁ second s₂,
        (applyStatement cfg params replace (stmt xs)).run s = (.ok first, s₁)
          ∧ (applyStatement cfg params replace (stmt ys)).run s₁ = (.ok second, s₂)
          ∧ s₂.model = m ∧ first.append second = added := by
  intro stmt
  have uniform : ∀ items, Uniform (applyStatement cfg params replace (stmt items)) :=
    fun items => .of_composed .applyStatement
  rw [← (uniform (xs ++ ys)).leads_iff, leads_applyStatement]
  constructor
  · rintro ⟨first, between, second, here, there, joined⟩
    obtain ⟨s₁, ran, rfl⟩ := (uniform xs).leads_iff.mp here
    obtain ⟨s₂, ran', reached⟩ := (uniform ys).leads_iff.mp there
    exact ⟨first, s₁, second, s₂, ran, ran', reached, joined⟩
  · rintro ⟨first, s₁, second, s₂, ran, ran', reached, joined⟩
    exact ⟨first, s₁.model, second, ⟨s, s₁, rfl, ran, rfl⟩, ⟨s₁, s₂, rfl, ran', reached⟩, joined⟩

end Statements

end Compilation

end LinearProgram
