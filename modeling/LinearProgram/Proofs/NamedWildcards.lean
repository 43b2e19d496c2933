import LinearProgram.Proofs.Agreement

/-!
# Values in the places of wildcards, and names for them

A tree with a value in the places of its wildcards (`Expr.fill`) and the tree with a bare name
there, to which the value is bound, have the same value (`Expr.evaluate_fill`). The induction is
over leaves that may stand for each other (`Expr.Stands`), which covers the scopes inside the tree
too.
-/

namespace LinearProgram

open List

variable {exact : Bool} {e : Expr}

namespace Expr

/-! ## Leaves in the places of wildcards -/

mutual

/-- The tree with a leaf in the place of each wildcard outside all scopes. -/
def fill : Expr → Expr → Expr
  | wildcard, leaf => leaf
  | literal value, _ => literal value
  | symbol name, _ => symbol name
  | sum args, _ => sum args
  | sumOver body gens, _ => sumOver body gens
  | each pattern, _ => each pattern
  | ref name indices, leaf => ref name (fillAll indices leaf)
  | lookup container key dot, leaf => lookup (container.fill leaf) (key.fill leaf) dot
  | arith op left right, leaf => arith op (left.fill leaf) (right.fill leaf)
  | compare op left right, leaf => compare op (left.fill leaf) (right.fill leaf)
  | range start stop, leaf => range (start.fill leaf) (stop.fill leaf)
  | negate operand, leaf => negate (operand.fill leaf)
  | abs operand, leaf => abs (operand.fill leaf)
  | piecewise operand breakpoints slopes offsets, leaf =>
    piecewise (operand.fill leaf) breakpoints slopes offsets
  | aggregate op [arg], _ => aggregate op [arg]
  | aggregate op args, leaf => aggregate op (fillAll args leaf)
  | ifThenElse cond yes no, leaf =>
    ifThenElse (cond.fill leaf) (yes.fill leaf) (no.fill leaf)

def fillAll : List Expr → Expr → List Expr
  | [], _ => []
  | e :: rest, leaf => e.fill leaf :: fillAll rest leaf

end

theorem fillAll_eq_map (args : List Expr) (leaf : Expr) :
    fillAll args leaf = args.map (·.fill leaf) := by
  induction args with
  | nil => rfl
  | cons _ _ ih => rw [fillAll, ih, map_cons]

theorem fill_ref (name : Value) (indices : List Expr) (leaf : Expr) :
    (ref name indices).fill leaf = ref name (indices.map (·.fill leaf)) := by
  rw [fill, fillAll_eq_map]

theorem fill_aggregate (op : Aggregate) {args : List Expr} (several : ∀ arg, args ≠ [arg])
    (leaf : Expr) : (aggregate op args).fill leaf = aggregate op (args.map (·.fill leaf)) := by
  rw [fill, fillAll_eq_map]
  exact several

theorem fill_wildcard (e : Expr) : e.fill wildcard = e := by
  induction e using induction_on_children with
  | step e ih =>
    have all : ∀ args : List Expr, (∀ c ∈ args, c.fill wildcard = c) →
        args.map (·.fill wildcard) = args := fun args each => by
      rw [map_congr_left each, map_id']
    cases e with
    | ref _ indices => rw [fill_ref, all indices ih]
    | aggregate op args =>
      by_cases single : ∃ arg, args = [arg]
      · obtain ⟨arg, rfl⟩ := single
        rfl
      · rw [fill_aggregate op (not_exists.mp single), all args ih]
    | wildcard | literal | symbol | sum | sumOver | each => rfl
    | lookup container key =>
      rw [fill, ih container mem_cons_self, ih key (by simp [children])]
    | arith op left right | compare op left right | range left right =>
      rw [fill, ih left mem_cons_self, ih right (by simp [children])]
    | negate operand | abs operand => rw [fill, ih operand mem_cons_self]
    | piecewise operand => rw [fill, ih operand mem_cons_self]
    | ifThenElse cond yes no =>
      rw [fill, ih cond mem_cons_self, ih yes (by simp [children]),
        ih no (by simp [children])]

/-- What becomes of a node: a wildcard gives way to the leaf, a scope and a leaf stay, and all other
nodes keep their roots over filled subtrees. -/
theorem fill_cases (e : Expr) :
    e = wildcard ∨ (e.isKept = true ∧ ∀ leaf, e.fill leaf = e)
      ∨ ∀ leaf, (e.fill leaf).isWildcard = false ∧ (e.fill leaf).isOpen = e.isOpen
        ∧ (e.fill leaf).children = e.children.map (·.fill leaf) := by
  cases e with
  | wildcard => exact .inl rfl
  | literal | symbol | sum | sumOver | each => exact .inr (.inl ⟨rfl, fun _ => rfl⟩)
  | ref =>
    refine .inr (.inr fun leaf => ?_)
    rw [fill_ref]
    exact ⟨rfl, rfl, rfl⟩
  | aggregate op args =>
    by_cases single : ∃ arg, args = [arg]
    · obtain ⟨arg, rfl⟩ := single
      exact .inr (.inl ⟨rfl, fun _ => rfl⟩)
    · refine .inr (.inr fun leaf => ?_)
      rw [fill_aggregate op (not_exists.mp single)]
      exact ⟨rfl, rfl, rfl⟩
  | _ => exact .inr (.inr fun _ => ⟨rfl, rfl, rfl⟩)

/-- Leaves that may stand for each other in the places of a tree's wildcards: the wildcard for
itself, and a value for a name that it is bound to, unless a dot makes the name a text. -/
inductive Stands (exact : Bool) (c' : Context) (e : Expr) : Expr → Expr → Prop
  | wildcard : Stands exact c' e wildcard wildcard
  | named {value : Value} {name : String} (unseen : exact = false)
      (bound : c'.bindings.get? name = some value)
      (undotted : ∀ container, lookup container wildcard true ∉ e.walk) :
      Stands exact c' e (literal value) (symbol name)

section Stands

variable {c' : Context} {leaf leaf' : Expr} (stands : Stands exact c' e leaf leaf')
include stands

theorem Stands.child {child : Expr} (mem : child ∈ e.children) :
    Stands exact c' child leaf leaf' := by
  cases stands with
  | wildcard => exact .wildcard
  | named unseen bound undotted =>
    exact .named unseen bound fun container inside =>
      undotted container (mem_walk_of_child mem inside)

theorem Stands.same (isExact : exact = true) : leaf = leaf' := by
  cases stands with
  | wildcard => rfl
  | named unseen => cases unseen.symm.trans isExact

theorem Stands.isConstant : leaf.isConstant = leaf'.isConstant := by
  cases stands with
  | wildcard => rfl
  | named => rw [isConstant_eq, isConstant_eq]; rfl

end Stands

/-- Leaves that are both constant, or both not, give trees that are. -/
theorem isConstant_fill (e : Expr) {leaf leaf' : Expr} (same : leaf.isConstant = leaf'.isConstant) :
    (e.fill leaf).isConstant = (e.fill leaf').isConstant := by
  induction e using induction_on_children with
  | step e ih =>
    rcases fill_cases e with rfl | ⟨-, stays⟩ | inner
    · exact same
    · rw [stays, stays]
    · rw [isConstant_eq, isConstant_eq (e.fill leaf'), (inner leaf).2.1, (inner leaf').2.1,
        (inner leaf).2.2, (inner leaf').2.2, all_map, all_map]
      congr 1
      rw [Bool.eq_iff_iff, all_eq_true, all_eq_true]
      exact forall₂_congr fun c mem => by rw [Function.comp, Function.comp, ih c mem]

/-! ## Evaluation -/

/-- A tree that is neither a wildcard nor a bare name. -/
def IsOther (e : Expr) : Prop := e ≠ wildcard ∧ ∀ name, e ≠ symbol name

theorem wildcard_or_symbol_or_other (e : Expr) :
    e = wildcard ∨ (∃ name, e = symbol name) ∨ e.IsOther := by
  cases e with
  | wildcard => exact .inl rfl
  | symbol name => exact .inr (.inl ⟨name, rfl⟩)
  | _ => exact .inr (.inr ⟨nofun, nofun⟩)

theorem IsOther.fill (other : e.IsOther) (leaf : Expr) : (e.fill leaf).IsOther := by
  obtain ⟨noWildcard, unnamed⟩ := other
  cases e with
  | wildcard => exact absurd rfl noWildcard
  | symbol name => exact absurd rfl (unnamed name)
  | aggregate op args =>
    by_cases single : ∃ arg, args = [arg]
    · obtain ⟨arg, rfl⟩ := single
      exact ⟨noWildcard, unnamed⟩
    · rw [fill_aggregate op (not_exists.mp single)]
      exact ⟨nofun, nofun⟩
  | _ => exact ⟨nofun, nofun⟩

theorem IsOther.keyValue {key : Expr} (other : key.IsOther) (dot : Bool) (ctx : Context) :
    key.keyValue dot ctx = key.evaluate ctx := by
  obtain ⟨noWildcard, unnamed⟩ := other
  cases key with
  | wildcard => exact absurd rfl noWildcard
  | symbol name => exact absurd rfl (unnamed name)
  | _ => rfl

theorem IsOther.resolveIndex {index : Expr} (other : index.IsOther) (reference : Expr)
    (name : Value) (ctx : Context) :
    resolveIndex reference name ctx index
      = if index.isConstant then index.evaluate ctx
        else raise (.indexNotConstant index name) := by
  obtain ⟨noWildcard, unnamed⟩ := other
  cases index with
  | wildcard => exact absurd rfl noWildcard
  | symbol name => exact absurd rfl (unnamed name)
  | _ => rfl

variable {c c' : Context} {leaf leaf' : Expr}

theorem keyValue_fill {container key : Expr} {dot : Bool}
    (stands : Stands exact c' (lookup container key dot) leaf leaf')
    (agrees : Context.Agrees exact (lookup container key dot).symbols c c')
    (same : EvaluateAlike exact c c' (key.fill leaf) (key.fill leaf')) :
    seen exact ((key.fill leaf).keyValue dot c)
      = seen exact ((key.fill leaf').keyValue dot c') := by
  rcases key.wildcard_or_symbol_or_other with rfl | ⟨name, rfl⟩ | other
  · cases stands with
    | wildcard => rfl
    | named _ bound undotted =>
      cases dot with
      | true => exact absurd (mem_walk_self _) (undotted container)
      | false => simp only [fill, keyValue, evaluate, bound, Bool.false_eq_true, if_false]; rfl
  · have known := agrees.alike.bindings name
      (mem_symbols_of_child (c := symbol name) (by simp [children]) (mem_symbols.mpr (.inl rfl)))
    simp only [fill, keyValue, known]
  · rw [(other.fill leaf).keyValue, (other.fill leaf').keyValue]
    exact same.value

/-- **A value and a name for it evaluate alike.** -/
theorem evaluate_fill (e : Expr) : ∀ {c c' : Context} {leaf leaf' : Expr},
    Stands exact c' e leaf leaf' → Context.Agrees exact e.symbols c c' →
      EvaluateAlike exact c c' (e.fill leaf) (e.fill leaf') := by
  induction e using induction_on_children with
  | step e ih =>
    intro c c' leaf leaf' stands agrees
    have below : ∀ t ∈ e.children, EvaluateAlike exact c c' (t.fill leaf) (t.fill leaf') :=
      fun t mem => ih t mem (stands.child mem)
        (agrees.mono fun _ => mem_symbols_of_child mem)
    -- in a scope the subtrees stay, and only the contexts differ
    have scope : ∀ t ∈ e.children, t.EvaluatesByNames exact := fun t mem c c' agrees => by
      simpa only [fill_wildcard] using ih t mem .wildcard agrees
    have source : exact = true → e.fill leaf = e.fill leaf' := fun isExact => by
      rw [stands.same isExact]
    cases e with
    | literal | each => exact ⟨rfl, fun _ => rfl⟩
    | ref =>
      refine ⟨?_, source⟩
      cases exact with
      | true => rw [stands.same rfl, fill_ref]; rfl
      | false => rw [fill_ref, fill_ref]; rfl
    | wildcard =>
      refine ⟨?_, source⟩
      cases stands with
      | wildcard => rfl
      | named _ bound => simp only [fill, evaluate, Context.resolve, bound]
    | symbol => exact ⟨agrees.resolve (mem_symbols.mpr (.inl rfl)), fun _ => rfl⟩
    | lookup container key =>
      have second := below key (by simp [children])
      exact (below container mem_cons_self).lookup (keyValue_fill stands agrees second)
        second.source agrees.alike.host
    | arith op left right =>
      exact (below left mem_cons_self).arith op (below right (by simp [children]))
    | compare op left right =>
      exact (below left mem_cons_self).compare op (below right (by simp [children]))
        agrees.alike.host
    | range start stop =>
      exact (below start mem_cons_self).range (below stop (by simp [children]))
    | negate operand => exact (below operand mem_cons_self).negate
    | abs operand => exact (below operand mem_cons_self).abs
    | piecewise operand breakpoints slopes offsets =>
      exact (below operand mem_cons_self).piecewise breakpoints slopes offsets
    | ifThenElse cond yes no =>
      exact (below cond mem_cons_self).ifThenElse (below yes (by simp [children]))
        (below no (by simp [children]))
    | sum =>
      exact .sum (forall₂_same.mpr fun t mem =>
        scope t mem c c' (agrees.mono fun _ => mem_symbols_of_child mem))
    | aggregate op args =>
      by_cases single : ∃ arg, args = [arg]
      · obtain ⟨arg, rfl⟩ := single
        exact .aggregate op (forall₂_same.mpr fun t mem =>
          scope t mem c c' (agrees.mono fun _ => mem_symbols_of_child mem))
      · rw [fill_aggregate op (not_exists.mp single), fill_aggregate op (not_exists.mp single)]
        refine .aggregate op ?_
        rw [forall₂_map_left_iff, forall₂_map_right_iff, forall₂_same]
        exact below
    | sumOver body gens =>
      have listed := bindings_alike (fun item known t mem =>
        have inside : t ∈ (sumOver body gens).children :=
          mem_cons_of_mem _ (mem_flatMap.mpr ⟨item, known, mem⟩)
        ⟨scope t inside, fun _ => mem_symbols_of_child inside⟩) agrees
      exact .sumOver listed (fun d d' agree => scope body mem_cons_self d d'
        (agree.mono fun _ => mem_symbols_of_child mem_cons_self)) fun _ => rfl

/-- A tree looks alike under all contexts that agree on its bare names. -/
theorem evaluatesByNames (e : Expr) : e.EvaluatesByNames exact := fun c c' agrees => by
  simpa only [fill_wildcard] using e.evaluate_fill .wildcard agrees

end Expr

/-! ## References and wildcards -/

section Wildcards

variable {c c' : Context} {leaf leaf' : Expr} {name : Value} {registry registry' : Option Model}
  {indices carriers : List Expr} {values assigned : List Value} {role : Nat}

theorem resolveIndex_fill {index reference reference' : Expr}
    (stands : Expr.Stands exact c' index leaf leaf')
    (agrees : Context.Agrees exact index.symbols c c')
    (source : exact = true → reference = reference') :
    seen exact (resolveIndex reference name c (index.fill leaf))
      = seen exact (resolveIndex reference' name c' (index.fill leaf')) := by
  rcases index.wildcard_or_symbol_or_other with rfl | ⟨symbol, rfl⟩ | other
  · cases stands with
    | wildcard =>
      cases exact with
      | true => rw [source rfl]; rfl
      | false => rfl
    | @named value symbol unseen bound undotted =>
      have constant : (Expr.literal value).isConstant = true := by
        rw [Expr.isConstant_eq]
        rfl
      simp only [Expr.fill, resolveIndex, constant, if_true, Expr.evaluate, Context.resolve,
        bound]
  · exact agrees.resolve (Expr.mem_symbols.mpr (.inl rfl))
  · have same := index.evaluate_fill stands agrees
    rw [(other.fill leaf).resolveIndex, (other.fill leaf').resolveIndex,
      index.isConstant_fill stands.isConstant]
    split
    · exact same.value
    · cases exact with
      | true => rw [same.source rfl]
      | false => rfl

theorem resolveIndices_stands (stands : Expr.Stands exact c' (.ref name indices) leaf leaf')
    (agrees : Context.Agrees exact (Expr.ref name indices).symbols c c') :
    seen exact (resolveIndices name (indices.map (·.fill leaf)) c)
      = seen exact (resolveIndices name (indices.map (·.fill leaf')) c') := by
  unfold resolveIndices
  rw [seen_mapM, seen_mapM]
  refine mapM_eq_of_forall₂ ?_
  rw [forall₂_map_left_iff, forall₂_map_right_iff, forall₂_same]
  exact fun index mem => resolveIndex_fill (stands.child mem)
    (agrees.mono fun _ => Expr.mem_symbols_of_child mem) fun isExact => by
      rw [stands.same isExact]

theorem resolveIndices_agrees (agrees : Context.Agrees exact (Expr.ref name indices).symbols c c') :
    seen exact (resolveIndices name indices c) = seen exact (resolveIndices name indices c') := by
  have same := resolveIndices_stands .wildcard agrees
  simpa only [Expr.fill_wildcard, map_id'] using same

/-- Models that declare the same instances of some families. -/
def Model.AlikeOn (families : List String) (m m' : Model) : Prop :=
  ∀ family ∈ families, m'.family? family = m.family? family
    ∧ ∀ index, m'.declared? ⟨family, index⟩ = m.declared? ⟨family, index⟩

theorem Model.AlikeOn.refl (families : List String) (m : Model) : m.AlikeOn families m :=
  fun _ _ => ⟨rfl, fun _ => rfl⟩

theorem mem_families_ref (family : String) (indices : List Expr) :
    family ∈ (Expr.ref (.str family) indices).families :=
  Expr.mem_families.mpr (.inl rfl)

theorem declares_alike {m m' : Model} (alike : m.AlikeOn (Expr.ref name indices).families m')
    (index : List Value) : m.declares name index = m'.declares name index := by
  unfold Model.declares
  split
  · rfl
  · split
    case h_1 family _ => rw [(alike family (mem_families_ref family indices)).2]
    case h_2 => rfl

/-- What a tree reads is alike: the values of its bare names and the instances of its families. -/
structure ReadsAlike (exact : Bool) (registry registry' : Option Model) (c c' : Context)
    (e : Expr) : Prop where
  names : Context.Agrees exact e.symbols c c'
  instances : Option.Rel (Model.AlikeOn e.families) registry registry'

namespace ReadsAlike

variable {e' : Expr} (reads : ReadsAlike exact registry registry' c c' e)
include reads

theorem mono (symbols : e.MarksWithin Expr.symbol? e') (families : e.MarksWithin Expr.family? e') :
    ReadsAlike exact registry registry' c c' e' := by
  refine ⟨reads.names.mono symbols, ?_⟩
  cases reads.instances with
  | none => exact .none
  | some alike => exact .some fun family mem => alike family (families family mem)

theorem of_walk (mem : e' ∈ e.walk) : ReadsAlike exact registry registry' c c' e' :=
  reads.mono (.of_walk mem) (.of_walk mem)

theorem of_substitute (replaced : e.substitute values = .ok e') :
    ReadsAlike exact registry registry' c c' e' :=
  reads.mono (Expr.substitute_replacing Expr.replacing_symbols replaced)
    (Expr.substitute_replacing Expr.replacing_families replaced)

end ReadsAlike

theorem foldReference_fill (stands : Expr.Stands exact c' (.ref name indices) leaf leaf')
    (agrees : Context.Agrees exact (Expr.ref name indices).symbols c c') :
    seen exact (foldReference registry name (indices.map (·.fill leaf)) c)
      = seen exact (foldReference registry name (indices.map (·.fill leaf')) c') := by
  simp only [foldReference, resolveReference, seen_bind, resolveIndices_stands stands agrees]

namespace Wildcard

theorem indexPattern_agrees {reference : Expr} {seen' position : Nat}
    (each : ∀ index ∈ indices, Context.Agrees exact index.symbols c c') :
    seen exact (indexPattern reference name c role assigned indices seen' position)
      = seen exact (indexPattern reference name c' role assigned indices seen' position) := by
  induction indices generalizing seen' position with
  | nil => rfl
  | cons index _ ih =>
    rw [forall_mem_cons] at each
    have here : seen exact (resolveIndex reference name c index)
        = seen exact (resolveIndex reference name c' index) := by
      simpa only [Expr.fill_wildcard] using
        resolveIndex_fill .wildcard each.1 fun _ => Eq.refl reference
    simp only [indexPattern, apply_ite (seen exact), seen_bind, here, ih each.2]

theorem familyDomain_alike
    (reads : ReadsAlike exact registry registry' c c' (.ref name indices)) :
    seen exact (familyDomain registry c role assigned name indices)
      = seen exact (familyDomain registry' c' role assigned name indices) := by
  have pattern := @indexPattern_agrees exact c c' name indices assigned role (.ref name indices) 0 0
    fun index mem => reads.names.mono fun _ => Expr.mem_symbols_of_child mem
  have known := reads.instances
  unfold familyDomain
  cases known with
  | none => simp only [seen_bind, pattern]
  | some alike =>
    cases name with
    | str family =>
      dsimp only
      rw [(alike family (mem_families_ref family indices)).1]
      split <;> simp only [seen_bind, pattern]
    | _ =>
      dsimp only
      split <;> simp only [seen_bind, pattern]

theorem containerDomain_agrees {chain : Expr} (agrees : Context.Agrees exact chain.symbols c c') :
    seen exact (containerDomain c role assigned chain)
      = seen exact (containerDomain c' role assigned chain) := by
  unfold containerDomain
  split
  case h_1 container key dot found =>
    refine seen_bind_congr rfl fun filled replaced => ?_
    -- the container is a node of the chain, and filling it brings no bare names in
    have step := Expr.wildcardSteps_mem_walk (mem_of_getElem? found)
    have within := Expr.substitute_replacing Expr.replacing_symbols replaced
    have same := filled.evaluatesByNames c c' (agrees.mono fun name inside =>
      Expr.MarksWithin.of_walk step name (Expr.mem_symbols_of_child mem_cons_self
        (within name inside)))
    simp only [seen_bind, same.value]
  case h_2 => rfl

theorem isDeclared_alike {carrier : Expr}
    (reads : ReadsAlike exact registry registry' c c' carrier) :
    seen exact (isDeclared registry c values carrier)
      = seen exact (isDeclared registry' c' values carrier) := by
  refine seen_bind_congr rfl fun filled replaced => ?_
  have within := reads.of_substitute replaced
  cases filled with
  | ref =>
    simp only [seen_bind, resolveIndices_agrees within.names]
    cases within.instances with
    | none => rfl
    | some alike => simp only [declares_alike alike]
  | _ => rfl

section Carriers

variable (each : ∀ carrier ∈ carriers, ReadsAlike exact registry registry' c c' carrier)
include each

theorem roleDomain_alike :
    seen exact (roleDomain registry c carriers assigned)
      = seen exact (roleDomain registry' c' carriers assigned) := by
  unfold roleDomain
  dsimp only
  split
  · simp only [seen_bind, seen_mapM]
    rw [mapM_congr_of_mem fun carrier mem => containerDomain_agrees
      (each carrier (mem_filter.mp mem).1).names]
  · simp only [seen_bind, seen_mapM]
    congr 1
    refine mapM_congr_of_mem fun carrier mem => ?_
    have known := (mem_filter.mp (mem_filter.mp mem).1).1
    cases carrier with
    | ref => exact familyDomain_alike (each _ known)
    | _ => rfl

theorem assignments_alike (roles : Nat) (assigned : List Value) :
    Listing.Alike exact Eq (assignments registry c carriers roles assigned)
      (assignments registry' c' carriers roles assigned) := by
  induction roles generalizing assigned with
  | zero => exact ⟨.cons rfl .nil, rfl⟩
  | succ _ ih =>
    rw [assignments, assignments]
    have domain : seen exact (roleDomain registry c carriers assigned)
        = seen exact (roleDomain registry' c' carriers assigned) := roleDomain_alike each
    rcases cases_of_seen domain with ⟨list, ok, ok'⟩ | ⟨e, e', error, error', same⟩
    · rw [ok, ok']
      exact .chain fun value _ => ih (assigned ++ [value])
    · rw [error, error']
      exact ⟨.nil, congrArg some same⟩

theorem allDeclared_alike :
    seen exact (allDeclared registry c values carriers)
      = seen exact (allDeclared registry' c' values carriers) := by
  induction carriers with
  | nil => rfl
  | cons _ _ ih =>
    rw [forall_mem_cons] at each
    simp only [allDeclared, seen_bind, isDeclared_alike each.1, apply_ite (seen exact), ih each.2]

end Carriers

/-- The instances of a tree come from what it reads. -/
theorem expand_alike (reads : ReadsAlike exact registry registry' c c' e) :
    seen exact (expand registry c e) = seen exact (expand registry' c' e) := by
  refine seen_bind_congr rfl fun carriers listed => ?_
  have each : ∀ carrier ∈ carriers, ReadsAlike exact registry registry' c c' carrier :=
    fun carrier mem => reads.of_walk (Expr.carriers_mem_walk e listed carrier mem)
  have references : ∀ carrier ∈ carriers.filter Expr.isReference,
      ReadsAlike exact registry registry' c c' carrier :=
    fun carrier mem => each carrier (mem_filter.mp mem).1
  split
  · rfl
  · refine (assignments_alike each _ []).foldM (fun done t t' same => ?_) []
    cases same
    simp only [seen_bind, allDeclared_alike references]

end Wildcard

end Wildcards

end LinearProgram
