import LinearProgram.Proofs.Weights
import LinearProgram.Proofs.SingleRole

/-!
# Sums over wildcards and over generators

A sum over instances replaces wildcards by values, a sum over a generator binds a name to them. With
a single role they compile the same summands (`Compilation.compile_alike`), and the zero that one of
them adds does not matter (`Polynomial.IsTotal.zero_add`).
-/

namespace LinearProgram

open List

variable {values : List Value} {name : String}

namespace Expr

/-! ## Trees without wildcards -/

theorem isWildcard_of_closed {e : Expr} (closed : e.hasWildcard = false) :
    e.isWildcard = false := by
  cases e <;> first | rfl | cases closed

theorem wildcardSteps_of_closed (e : Expr) (closed : e.hasWildcard = false) :
    e.wildcardSteps = [] := by
  induction e using induction_on_children with
  | step e ih =>
    cases e with
    | lookup container =>
      rw [hasWildcard, Bool.or_eq_false_iff] at closed
      rw [wildcardSteps, ih container mem_cons_self closed.1, isWildcard_of_closed closed.2]
      rfl
    | _ => rfl

theorem carriersOfAll_of_none {trees : List Expr} (none : ∀ e ∈ trees, e.carriers false = .ok []) :
    carriersOfAll trees = .ok [] := by
  rw [carriersOfAll_eq_mapM, mapM_congr_of_mem (g := fun _ => pure []) none, mapM_pure, map_const',
    pure_bind, flatten_replicate_nil]
  rfl

theorem carriers_of_closed (e : Expr) :
    ∀ {inChain : Bool}, e.hasWildcard = false → e.carriers inChain = .ok [] := by
  induction e using induction_on_kinds with
  | wildcard => exact fun closed => nomatch closed
  | kept e kept => exact fun _ => carriers_of_isKept kept _
  | ref _ indices ih =>
    intro inChain closed
    obtain ⟨-, fixed⟩ := (hasWildcard_eq_false_iff rfl).mp closed
    have none : indices.any isWildcard = false := by
      rw [any_eq_false]
      exact fun e mem => by simp [isWildcard_of_closed (fixed e mem)]
    rw [carriers, carriersOfIndices_eq_carriersOfAll, none, carriersOfAll_of_none]
    · rfl
    · exact fun e mem => ih e (mem_filter.mp mem).1 (fixed e (mem_filter.mp mem).1)
  | lookup _ _ _ inner outer =>
    intro inChain closed
    have steps := wildcardSteps_of_closed _ closed
    rw [hasWildcard, Bool.or_eq_false_iff] at closed
    rw [carriers, inner closed.1]
    dsimp only [bind, Except.bind]
    split
    · cases closed.2
    · rw [outer closed.2]
      dsimp only
      rw [steps, isEmpty_nil, Bool.not_true, Bool.and_false]
      rfl
  | joint e joint ih =>
    intro inChain closed
    obtain ⟨-, closed⟩ := (hasWildcard_eq_false_iff (isKept_of_isJoint joint)).mp closed
    rw [carriers_of_isJoint joint]
    exact carriersOfAll_of_none fun e mem => ih e mem (closed e mem)

/-- No wildcard is left where a closed tree takes their places. -/
theorem hasWildcard_fill (e : Expr) {leaf : Expr} (closed : leaf.hasWildcard = false) :
    (e.fill leaf).hasWildcard = false := by
  induction e using induction_on_children with
  | step e ih =>
    rcases fill_cases e with rfl | ⟨kept, stays⟩ | inner
    · exact closed
    · rw [stays]
      exact hasWildcard_of_isKept kept
    · refine hasWildcard_of_children (inner leaf).1 ?_
      rw [(inner leaf).2.2]
      exact forall_mem_map.mpr ih

/-- A tree with a reference has it whatever takes the places of its wildcards. -/
theorem isConstant_fill_of_reference (e leaf : Expr) {c : Expr} (inside : c ∈ e.walk)
    (isReference : c.isReference = true) : (e.fill leaf).isConstant = false := by
  have isOpen : c.isOpen = true := by cases c <;> first | rfl | cases isReference
  induction e using induction_on_children with
  | step e ih =>
    rcases fill_cases e with rfl | ⟨-, stays⟩ | inner
    · rw [walk_eq] at inside
      cases mem_singleton.mp inside
      cases isReference
    · rw [stays, isConstant, all_eq_false]
      exact ⟨c, inside, by simp [isOpen]⟩
    · rw [walk_eq] at inside
      rw [isConstant_eq, (inner leaf).2.1, (inner leaf).2.2]
      rcases mem_cons.mp inside with rfl | below
      · rw [isOpen]
        rfl
      · obtain ⟨t, mem, within⟩ := mem_flatMap.mp below
        rw [Bool.and_eq_false_iff, all_map, all_eq_false]
        exact .inr ⟨t, mem, by simp [ih t mem within]⟩

/-- A tree with wildcards is no pattern of instances, and no tree becomes one. -/
theorem fill_ne_each {e : Expr} (carries : e.hasWildcard = true) (name : String) (pattern : Expr) :
    e.fill (symbol name) ≠ each pattern := by
  cases e with
  | aggregate op args =>
    by_cases single : ∃ arg, args = [arg]
    · obtain ⟨arg, rfl⟩ := single
      nofun
    · rw [fill_aggregate op (not_exists.mp single)]
      nofun
  | each => cases carries
  | _ => nofun

end Expr

namespace Compilation

open Assembly

variable {cfg : Config} {compileTree : Subtrees} {ctx : Context} {e : Expr}
  {s s' : Store} {p q : Polynomial}

/-! ## Summands -/

theorem compileSummand_of_closed (closed : e.hasWildcard = false)
    (notEach : ∀ pattern, e ≠ .each pattern) :
    compileSummand compileTree e ctx = compileTree e ctx := by
  unfold compileSummand
  cases e with
  | each pattern => exact absurd rfl (notEach pattern)
  | _ => exact if_neg (by simp [closed])

theorem compileSummand_of_carries (carries : e.hasWildcard = true) :
    compileSummand compileTree e ctx = (do
      let instances ← Wildcard.expand (some (← Assembly.model)) ctx e
      sumTrees compileTree instances ctx) := by
  unfold compileSummand
  cases e with
  | each => cases carries
  | _ => exact if_pos carries

theorem foldTrees_isTotal {trees : List Expr} (total : p.IsTotal)
    (ran : (trees.foldlM (fun (total : Polynomial) tree => do
      total.add (← compileTree tree ctx) : Polynomial → Expr → Assembly Polynomial) p).run s
        = (.ok q, s')) : q.IsTotal := by
  induction trees generalizing p s with
  | nil =>
    cases ran
    exact total
  | cons _ _ ih =>
    rw [foldlM_cons] at ran
    obtain ⟨next, s₁, step, ran⟩ := run_bind_ok.mp ran
    obtain ⟨r, s₂, -, added⟩ := run_bind_ok.mp step
    exact ih (total.add (run_lift_ok.mp added).1) ran

theorem sumTrees_isTotal {trees : List Expr}
    (ran : (sumTrees compileTree trees ctx).run s = (.ok q, s')) : q.IsTotal :=
  foldTrees_isTotal Polynomial.isTotal_zero ran

theorem sum_single_ok (nonconstant : (Expr.sum [e]).isConstant = false)
    (carries : e.hasWildcard = true)
    (ran : (compile cfg (.sum [e]) ctx).run s = (.ok p, s')) :
    ∃ instances, Wildcard.expand (some s.model) ctx e = .ok instances
      ∧ (sumTrees (compile cfg) instances ctx).run s = (.ok p, s') := by
  rw [compile_eq] at ran
  unfold compileNode at ran
  rw [if_neg (by simp [nonconstant])] at ran
  dsimp only at ran
  rw [foldlM_cons, compileSummand_of_carries carries] at ran
  obtain ⟨total, s₁, step, last⟩ := run_bind_ok.mp ran
  obtain ⟨rfl, rfl⟩ := run_pure_ok last
  obtain ⟨q, s₂, summand, added⟩ := run_bind_ok.mp step
  obtain ⟨added, rfl⟩ := run_lift_ok.mp added
  obtain ⟨m, s₃, isModel, summand⟩ := run_bind_ok.mp summand
  cases isModel
  obtain ⟨instances, expanded, summed⟩ := run_lift_bind_ok.mp summand
  refine ⟨instances, expanded, ?_⟩
  -- the total of the instances is added to zero
  rw [(sumTrees_isTotal summed).zero_add] at added
  cases added
  exact summed

theorem bindings_ranging (plain : ∀ v ∈ values, v.IsPlain) :
    bindings [GeneratorItem.ranging name (.data (.list values))] ctx
      = ⟨values.map (ctx.bind name), none⟩ := by
  have same : values.map Value.normalize = values := by
    rw [map_congr_left fun v mem => (plain v mem).normalize, map_id']
  rw [GeneratorItem.ranging, bindings, Datum.domainValues, domainItems, same]
  exact Listing.chain_singletons (ctx.bind name) values

/-- A sum over bindings of a name is a fold over them. -/
theorem sumOver_ranging {body : Expr} (nonconstant : body.isConstant = false)
    (plain : ∀ v ∈ values, v.IsPlain) :
    compile cfg (.sumOver body [GeneratorItem.ranging name (.data (.list values))]) ctx
      = (values.map (ctx.bind name)).foldlM (fun (total : Polynomial) inner => do
          total.add (← compileSummand (compile cfg) body inner))
        (Polynomial.const (.int 0)) := by
  have isSum : (Expr.sumOver body
      [GeneratorItem.ranging name (.data (.list values))]).isConstant = false := by
    rw [Expr.isConstant_eq]
    simp [Expr.children, nonconstant]
  rw [compile_eq]
  unfold compileNode
  rw [if_neg (by simp [isSum])]
  dsimp only
  rw [bindings_ranging plain]
  exact bind_pure _

/-- The instances for some values are compiled as the tree with a name for them is. -/
theorem success_named (undotted : ∀ container, .lookup container .wildcard true ∉ e.walk)
    (fresh : name ∉ e.symbols) (carries : e.hasWildcard = true) :
    success (sumTrees (compile cfg) (values.map fun v => e.fill (.literal v)) ctx)
      = success ((values.map (ctx.bind name)).foldlM (fun (total : Polynomial) inner => do
          total.add (← compileSummand (compile cfg) (e.fill (.symbol name)) inner))
        (Polynomial.const (.int 0))) := by
  refine success_eq_of_seen ?_
  rw [sumTrees, Assembly.seen_foldlM, Assembly.seen_foldlM]
  refine foldlM_eq_of_forall₂ ?_ _
  rw [forall₂_map_left_iff, forall₂_map_right_iff]
  refine forall₂_same.mpr fun v _ total => ?_
  have bound : (ctx.bind name v).bindings.get? name = some v := by
    rw [Context.bind, Scope.get?_put, if_pos rfl]
  have steps := compile_alike cfg e.weight e (Nat.le_refl _) (.named rfl bound undotted)
    ⟨Context.AlikeOn.bind_right fresh v, fun isExact => by cases isExact⟩
  rw [compileSummand_of_closed (Expr.hasWildcard_fill e rfl) (Expr.fill_ne_each carries name),
    Assembly.seen_bind, Assembly.seen_bind, steps]

/-! ## The two sums -/

/-- **A sum over a wildcard is the sum over a generator.** If all carriers of a tree have one
wildcard and some are references, the sum of its instances and the sum of the tree with a new name
in the places of its wildcards, ranging over the values of the role, are the same polynomial and
leave the same store. A wildcard never comes after a dot, where only names are built
(`Expr.lookupStep`): a name would be a text there. -/
theorem wildcard_sum_eq_generator_sum (cfg : Config) (s : Store) (reachable : Reachable cfg s)
    (ctx : Context) (e : Expr)
    (undotted : ∀ container, .lookup container .wildcard true ∉ e.walk) (carriers : List Expr)
    (listed : e.carriers false = .ok carriers) (single : ∀ c ∈ carriers, c.wildcardCount = 1)
    (reference : ∃ c ∈ carriers, c.isReference = true) (name : String) (fresh : name ∉ e.symbols)
    (p : Polynomial) (s' : Store)
    (ran : (compile cfg (.sum [e]) ctx).run s = (.ok p, s')) :
    ∃ values, Wildcard.roleDomain (some s.model) ctx carriers [] = .ok values
      ∧ ((∀ v ∈ values, v.IsPlain) →
        (compile cfg (.sumOver (e.fill (.symbol name))
          [GeneratorItem.ranging name (.data (.list values))]) ctx).run s = (.ok p, s')) := by
  obtain ⟨c, known, isReference⟩ := reference
  have inside : c ∈ e.walk := Expr.carriers_mem_walk e listed c known
  have some_ : carriers ≠ [] := List.ne_nil_of_mem known
  have carries : e.hasWildcard = true := by
    by_contra closed
    rw [Expr.carriers_of_closed e (by simpa using closed)] at listed
    cases listed
    cases known
  have nonconstant : (Expr.sum [e]).isConstant = false := by
    have inner := Expr.isConstant_fill_of_reference e .wildcard inside isReference
    rw [Expr.fill_wildcard] at inner
    rw [Expr.isConstant_eq]
    simp [Expr.children, inner]
  obtain ⟨instances, expanded, summed⟩ := sum_single_ok nonconstant carries ran
  have registered := (reachable.keeps (Model.registered_invariant cfg)
    (Model.registered_empty cfg)).2.2
  have keyed := (reachable.keeps (Model.keyed_invariant cfg) fun _ _ => nofun).2.2
  obtain ⟨values, given, all⟩ :=
    Wildcard.expand_single registered keyed listed single some_ expanded
  refine ⟨values, given, fun plain => ?_⟩
  rw [all plain] at summed
  rw [sumOver_ranging (Expr.isConstant_fill_of_reference e _ inside isReference) plain,
    ← success_eq_some, ← success_named undotted fresh carries, success_eq_some]
  exact summed

def targets : Context := { parameters := { table := [("target", .list [.int 3, .int 5])] } }

/-- How far a shelf is from its place. -/
def distance : Expr :=
  .abs (.arith .sub (.ref (.str "shelf") [.wildcard])
    (.lookup (.symbol "target") .wildcard false))

/-- Two distances get two auxiliary variables, whichever way they are summed up. -/
theorem distance_sum_eq :
    Reachable {} Wildcard.shelves
      ∧ (∀ container, .lookup container .wildcard true ∉ distance.walk)
      ∧ distance.carriers false = .ok [.ref (.str "shelf") [.wildcard],
        .lookup (.symbol "target") .wildcard false]
      ∧ "i" ∉ distance.symbols
      ∧ ∃ p s', (compile {} (.sum [distance]) targets).run Wildcard.shelves = (.ok p, s')
        ∧ s'.model.columns.map (·.name) = ["shelf(0)", "shelf(1)", "aux_abs(1)", "aux_abs(2)"]
        ∧ (compile {} (.sumOver (distance.fill (.symbol "i"))
            [GeneratorItem.ranging "i" (.data (.list [.int 0, .int 1]))]) targets).run
          Wildcard.shelves = (.ok p, s') := by
  have reachable : Reachable {} Wildcard.shelves := (Reachable.empty .none).statement {} false _
  have undotted : ∀ container, .lookup container .wildcard true ∉ distance.walk := by
    intro container inside
    simp [distance, Expr.walk_eq, Expr.children] at inside
  have fresh : "i" ∉ distance.symbols := by decide +kernel
  have names : ((compile {} (.sum [distance]) targets).run Wildcard.shelves).2.model.columns.map
      (·.name) = ["shelf(0)", "shelf(1)", "aux_abs(1)", "aux_abs(2)"] := by decide +kernel
  have domain : Wildcard.roleDomain (some Wildcard.shelves.model) targets
      [.ref (.str "shelf") [.wildcard], .lookup (.symbol "target") .wildcard false] []
      = .ok [.int 0, .int 1] := by with_unfolding_all rfl
  obtain ⟨p, ran⟩ := exists_run_ok (x := compile {} (.sum [distance]) targets)
    (s := Wildcard.shelves) (by decide +kernel)
  obtain ⟨values, given, equal⟩ := wildcard_sum_eq_generator_sum {} Wildcard.shelves reachable
    targets distance undotted _ rfl (by decide) ⟨_, List.mem_cons_self, rfl⟩ "i" fresh p _ ran
  cases domain.symm.trans given
  exact ⟨reachable, undotted, rfl, fresh, p, _, ran, names, equal (by decide)⟩

end Compilation

end LinearProgram
