import LinearProgram.Proofs.NamedWildcards

/-!
# The names of generators do not matter

A generator's name may be replaced by one that the sum does not use (`renamed_generator_evaluates`).
Renaming (`Expr.rename`) leaves out a key after a dot, and stops where the old name is bound again.
Until then the contexts have the same value under the two names (`Context.Renamed`); from there on
they differ in the new name only, which nothing mentions.
-/

namespace LinearProgram

open List

variable {e : Expr} {i j : String} {c c' : Context}

/-- Nothing is asked about messages where they are not seen. -/
theorem of_blurred {p : Prop} : false = true → p := Not.elim Bool.false_ne_true

/-! ## Renaming -/

mutual

/-- The tree with the name `j` in the place of `i`, where `i` is not bound in the tree itself. -/
def Expr.rename (i j : String) : Expr → Expr
  | .wildcard => .wildcard
  | .literal value => .literal value
  | .symbol name => .symbol (if name = i then j else name)
  | .ref name indices => .ref name (renameAll i j indices)
  | .lookup container key dot =>
    .lookup (container.rename i j) (if dot && key.symbol?.isSome then key else key.rename i j) dot
  | .arith op left right => .arith op (left.rename i j) (right.rename i j)
  | .negate operand => .negate (operand.rename i j)
  | .compare op left right => .compare op (left.rename i j) (right.rename i j)
  | .range start stop => .range (start.rename i j) (stop.rename i j)
  | .sum args => .sum (renameAll i j args)
  | .sumOver body gens =>
    .sumOver (if i ∈ boundNames gens then body else body.rename i j)
      (renameItems i j gens)
  | .each pattern => .each (pattern.rename i j)
  | .abs operand => .abs (operand.rename i j)
  | .aggregate op args => .aggregate op (renameAll i j args)
  | .ifThenElse cond yes no =>
    .ifThenElse (cond.rename i j) (yes.rename i j) (no.rename i j)
  | .piecewise operand breakpoints slopes offsets =>
    .piecewise (operand.rename i j) breakpoints slopes offsets

def renameAll (i j : String) : List Expr → List Expr
  | [] => []
  | e :: rest => e.rename i j :: renameAll i j rest

/-- The steps of a binding list, up to and with the domain of the next generator called `i`. -/
def renameItems (i j : String) : List GeneratorItem → List GeneratorItem
  | [] => []
  | .filter cond :: rest => .filter (cond.rename i j) :: renameItems i j rest
  | .generator name domain :: rest =>
    .generator name (domain.rename i j) :: if name = i then rest else renameItems i j rest

def Datum.rename (i j : String) : Datum → Datum
  | .data value => .data value
  | .tree e => .tree (e.rename i j)

end

/-- A sum with the name of one generator, and what refers to this generator, renamed. -/
def Expr.renameGenerator (body : Expr) (before : List GeneratorItem) (i j : String)
    (domain : Datum) (after : List GeneratorItem) : Expr :=
  .sumOver (if i ∈ boundNames after then body else body.rename i j)
    (before ++ .generator j domain :: renameItems i j after)

/-- The names that a node binds. -/
def Expr.boundHere : Expr → List String
  | .sumOver _ gens => boundNames gens
  | _ => []

/-- The names that generators of a tree bind. -/
def Expr.binders (e : Expr) : List String := e.walk.flatMap boundHere

theorem Expr.mem_binders {name : String} :
    name ∈ e.binders ↔ name ∈ e.boundHere ∨ ∃ t ∈ e.children, name ∈ t.binders := by
  simp only [binders, walk_eq e, flatMap_cons, mem_append, mem_flatMap]
  constructor
  · rintro (here | ⟨node, ⟨t, mem, inside⟩, known⟩)
    · exact .inl here
    · exact .inr ⟨t, mem, node, inside, known⟩
  · rintro (here | ⟨t, mem, node, inside, known⟩)
    · exact .inl here
    · exact .inr ⟨node, ⟨t, mem, inside⟩, known⟩

theorem renameAll_eq_map (i j : String) (args : List Expr) :
    renameAll i j args = args.map (Expr.rename i j) := by
  induction args with
  | nil => rfl
  | cons _ _ ih => rw [renameAll, ih, map_cons]

/-! ## Shape -/

/-- A tree that is renamed, or one out of reach. -/
def RenamedOrSame (i j : String) (t t' : Expr) : Prop := t' = t ∨ t' = t.rename i j

theorem children_renameItems (i j : String) (items : List GeneratorItem) :
    Forall₂ (RenamedOrSame i j) (items.flatMap GeneratorItem.children)
      ((renameItems i j items).flatMap GeneratorItem.children) := by
  have same : ∀ l : List Expr, Forall₂ (RenamedOrSame i j) l l := fun l =>
    forall₂_same.mpr fun _ _ => .inl rfl
  induction items with
  | nil => exact .nil
  | cons item _ ih =>
    cases item with
    | filter => exact .cons (.inr rfl) ih
    | generator _ domain =>
      rw [renameItems, flatMap_cons, flatMap_cons]
      refine rel_append ?_ ?_
      · cases domain with
        | data => exact .nil
        | tree => exact .cons (.inr rfl) .nil
      · split
        · exact same _
        · exact ih

/-- Renaming keeps the shape of a node. -/
theorem children_rename (i j : String) (e : Expr) :
    Forall₂ (RenamedOrSame i j) e.children (e.rename i j).children := by
  have all : ∀ args : List Expr, Forall₂ (RenamedOrSame i j) args (renameAll i j args) :=
    fun args => by
      rw [renameAll_eq_map, forall₂_map_right_iff, forall₂_same]
      exact fun _ _ => .inr rfl
  cases e with
  | wildcard | literal | symbol => exact .nil
  | ref name args | sum args | aggregate op args => exact all args
  | lookup =>
    refine .cons (.inr rfl) (.cons ?_ .nil)
    split
    · exact .inl rfl
    · exact .inr rfl
  | sumOver _ gens =>
    refine .cons ?_ (children_renameItems i j gens)
    split
    · exact .inl rfl
    · exact .inr rfl
  | arith | compare | range => exact .cons (.inr rfl) (.cons (.inr rfl) .nil)
  | negate | each | abs | piecewise => exact .cons (.inr rfl) .nil
  | ifThenElse => exact .cons (.inr rfl) (.cons (.inr rfl) (.cons (.inr rfl) .nil))

theorem isConstant_rename (i j : String) (e : Expr) : e.isConstant = (e.rename i j).isConstant := by
  induction e using Expr.induction_on_children with
  | step e ih =>
    have root : (e.rename i j).isOpen = e.isOpen := by cases e <;> rfl
    rw [Expr.isConstant_eq, Expr.isConstant_eq (e.rename i j), root]
    congr 1
    have related := children_rename i j e
    generalize e.children = trees at ih related
    generalize (e.rename i j).children = trees' at related
    induction related with
    | nil => rfl
    | cons here _ more =>
      rw [forall_mem_cons] at ih
      rw [all_cons, all_cons, more ih.2]
      rcases here with rfl | rfl
      · rfl
      · rw [ih.1]

/-! ## Contexts -/

/-- Contexts in which `i` and `j` stand for one value, and every other name for the same. -/
structure Context.Renamed (i j : String) (c c' : Context) : Prop where
  bound : ∃ v, c.bindings.get? i = some v ∧ c'.bindings.get? j = some v
  others : ∀ name, name ≠ i → name ≠ j → c.bindings.get? name = c'.bindings.get? name
  parameters : c.parameters = c'.parameters

namespace Context

theorem get?_bind (c : Context) (name other : String) (value : Value) :
    (c.bind name value).bindings.get? other
      = if other = name then some value else c.bindings.get? other :=
  Scope.get?_put c.bindings name other value

theorem renamed_bind (c : Context) (i j : String) (v : Value) :
    Renamed i j (c.bind i v) (c.bind j v) where
  bound := ⟨v, by rw [get?_bind, if_pos rfl], by rw [get?_bind, if_pos rfl]⟩
  others name notOld notNew := by rw [get?_bind, get?_bind, if_neg notOld, if_neg notNew]
  parameters := rfl

namespace Renamed

variable {name : String} (renamed : Renamed i j c c')
include renamed

/-- A further name that is neither of the two. -/
theorem bind (notOld : name ≠ i) (notNew : name ≠ j) (v : Value) :
    Renamed i j (c.bind name v) (c'.bind name v) where
  bound := by
    simp only [get?_bind, if_neg notOld.symm, if_neg notNew.symm]
    exact renamed.bound
  others other notOld' notNew' := by
    simp only [get?_bind, renamed.others other notOld' notNew']
  parameters := renamed.parameters

/-- Once the old name is bound again, only the new one tells the contexts apart. -/
theorem rebind {names : List String} (fresh : j ∉ names) (v : Value) :
    Agrees false names (c.bind i v) (c'.bind i v) := by
  refine ⟨⟨fun other mem => ?_, fun other _ => ?_,
    congrArg (·.host) renamed.parameters⟩, of_blurred⟩
  · rw [get?_bind, get?_bind]
    split
    · rfl
    case isFalse notOld =>
      refine renamed.others other notOld ?_
      rintro rfl
      exact fresh mem
  · exact congrArg (·.table.get? other) renamed.parameters

/-- What a bare name is bound to. -/
theorem get? (notNew : name ≠ j) :
    c.bindings.get? name = c'.bindings.get? (if name = i then j else name) := by
  split
  case isTrue same =>
    obtain ⟨v, old, new⟩ := renamed.bound
    rw [same, old, new]
  case isFalse notOld => exact renamed.others name notOld notNew

/-- Only another name can be unbound, and that one stays as it is. -/
theorem ne_of_unbound (unbound : c'.bindings.get? (if name = i then j else name) = none) :
    name ≠ i := by
  rintro rfl
  obtain ⟨v, -, new⟩ := renamed.bound
  rw [if_pos rfl, new] at unbound
  cases unbound

theorem resolve (notNew : name ≠ j) :
    seen false (c.resolve name) = seen false (c'.resolve (if name = i then j else name)) := by
  unfold Context.resolve
  rw [renamed.get? notNew]
  split
  · rfl
  case h_2 unbound =>
    rw [if_neg (renamed.ne_of_unbound unbound), renamed.parameters]
    split
    · rfl
    · exact seen_raise rfl _ _

end Renamed

end Context

/-! ## Evaluation -/

section Bindings

variable {names : List String} {items before after : List GeneratorItem}

/-- A tree that looks alike once it is renamed, in all contexts that belong together. -/
def Expr.EvaluatesRenamed (i j : String) (e : Expr) : Prop :=
  ∀ c c' : Context, Context.Renamed i j c c' → EvaluateAlike false c c' e (e.rename i j)

/-- The contexts behind a binding list belong together, or differ in the new name only if the list
binds the old one again. -/
def Behind (i j : String) (items : List GeneratorItem) (names : List String) :
    Context → Context → Prop :=
  if i ∈ boundNames items then Context.Agrees false names else Context.Renamed i j

theorem bindings_rename (fresh : j ∉ names)
    (each : ∀ item ∈ items, ∀ t ∈ item.children, t.EvaluatesRenamed i j
      ∧ ∀ symbol ∈ t.symbols, symbol ∈ names)
    (unbound : j ∉ boundNames items) (renamed : Context.Renamed i j c c') :
    Listing.Alike false (Behind i j items names) (bindings items c)
      (bindings (renameItems i j items) c') := by
  induction items generalizing c c' with
  | nil => exact ⟨.cons renamed .nil, rfl⟩
  | cons item rest ih =>
    rw [forall_mem_cons] at each
    cases item with
    | filter cond =>
      exact bindings_filter_alike ((each.1 cond mem_cons_self).1 c c' renamed)
        (ih each.2 unbound renamed)
    | generator name domain =>
      obtain ⟨notNew, unbound⟩ : j ≠ name ∧ j ∉ boundNames rest := by
        simpa [boundNames, GeneratorItem.name?] using unbound
      have values : seen false (domain.domainValues name c)
          = seen false ((domain.rename i j).domainValues name c') := by
        cases domain with
        | data => rfl
        | tree e =>
          exact domainValues_alike of_blurred (isConstant_rename i j e)
            ((each.1 e mem_cons_self).1 c c' renamed)
      rw [renameItems]
      refine bindings_generator_alike values fun v => ?_
      by_cases again : name = i
      · -- from here on the trees stay
        have behind : Behind i j (.generator name domain :: rest) names
            = Context.Agrees false names := if_pos (again ▸ mem_cons_self)
        rw [behind, if_pos again, again]
        exact bindings_alike (fun item mem t inside =>
          ⟨t.evaluatesByNames, (each.2 item mem t inside).2⟩) (renamed.rebind fresh v)
      · have behind : Behind i j (.generator name domain :: rest) names
            = Behind i j rest names := by
          have later : i ∈ name :: boundNames rest ↔ i ∈ boundNames rest := by
            rw [mem_cons, or_iff_right (Ne.symm again)]
          exact if_congr later rfl rfl
        rw [behind, if_neg again]
        exact ih each.2 unbound (renamed.bind again notNew.symm v)

/-- A body behind a binding list, renamed if it still refers to the old name. -/
theorem evaluate_behind {body : Expr} (inside : body.EvaluatesRenamed i j)
    (known : ∀ symbol ∈ body.symbols, symbol ∈ names) (behind : Behind i j items names c c') :
    EvaluateAlike false c c' body
      (if i ∈ boundNames items then body else body.rename i j) := by
  unfold Behind at behind
  split
  case isTrue again =>
    rw [if_pos again] at behind
    exact body.evaluatesByNames c c' (behind.mono known)
  case isFalse once =>
    rw [if_neg once] at behind
    exact inside c c' behind

end Bindings

namespace Expr

theorem keyValue_rename {key : Expr} {dot : Bool} (renamed : Context.Renamed i j c c')
    (fresh : j ∉ key.symbols) (same : EvaluateAlike false c c' key (key.rename i j)) :
    seen false (key.keyValue dot c) = seen false
      ((if dot && key.symbol?.isSome then key else key.rename i j).keyValue dot c') := by
  cases key with
  | wildcard => cases dot <;> rfl
  | symbol name =>
    have notNew : name ≠ j := by
      rintro rfl
      exact fresh (mem_symbols.mpr (.inl rfl))
    cases dot with
    | true => rfl
    | false =>
      simp only [Bool.false_and, Bool.false_eq_true, if_false, rename, keyValue,
        renamed.get? notNew]
      cases unbound : c'.bindings.get? (if name = i then j else name) with
      | some => rfl
      | none => rw [if_neg (renamed.ne_of_unbound unbound)]
  | _ => cases dot <;> exact same.value

theorem evaluate_rename (e : Expr) (fresh : j ∉ e.symbols) (unbound : j ∉ e.binders) :
    e.EvaluatesRenamed i j := by
  induction e using induction_on_children with
  | step e ih =>
    intro c c' renamed
    have inside : ∀ t ∈ e.children, t.EvaluatesRenamed i j := fun t mem =>
      ih t mem (fun known => fresh (mem_symbols_of_child mem known))
        fun known => unbound (mem_binders.mpr (.inr ⟨t, mem, known⟩))
    have below : ∀ t ∈ e.children, EvaluateAlike false c c' t (t.rename i j) :=
      fun t mem => inside t mem c c' renamed
    cases e with
    | wildcard | literal => exact ⟨rfl, of_blurred⟩
    | each | ref => exact ⟨seen_raise rfl _ _, of_blurred⟩
    | symbol =>
      refine ⟨renamed.resolve ?_, of_blurred⟩
      rintro rfl
      exact fresh (mem_symbols.mpr (.inl rfl))
    | lookup container key =>
      have second := below key (by simp [children])
      refine (below container mem_cons_self).lookup (keyValue_rename renamed ?_ second) of_blurred
        (congrArg (·.host) renamed.parameters)
      exact fun known => fresh (mem_symbols_of_child (by simp [children]) known)
    | arith op left right =>
      exact (below left mem_cons_self).arith op (below right (by simp [children]))
    | compare op left right =>
      exact (below left mem_cons_self).compare op (below right (by simp [children]))
        (congrArg (·.host) renamed.parameters)
    | range start stop =>
      exact (below start mem_cons_self).range (below stop (by simp [children]))
    | negate operand => exact (below operand mem_cons_self).negate
    | abs operand => exact (below operand mem_cons_self).abs
    | piecewise operand breakpoints slopes offsets =>
      exact (below operand mem_cons_self).piecewise breakpoints slopes offsets
    | ifThenElse cond yes no =>
      exact (below cond mem_cons_self).ifThenElse (below yes (by simp [children]))
        (below no (by simp [children]))
    | sum =>
      rw [rename, renameAll_eq_map]
      refine .sum ?_
      rw [forall₂_map_right_iff, forall₂_same]
      exact below
    | aggregate op =>
      rw [rename, renameAll_eq_map]
      refine .aggregate op ?_
      rw [forall₂_map_right_iff, forall₂_same]
      exact below
    | sumOver body gens =>
      have listed := bindings_rename fresh (fun item mem t known =>
          have child : t ∈ (sumOver body gens).children :=
            mem_cons_of_mem _ (mem_flatMap.mpr ⟨item, mem, known⟩)
          ⟨inside t child, fun _ => mem_symbols_of_child child⟩)
        (fun bound => unbound (mem_binders.mpr (.inl bound))) renamed
      exact .sumOver listed (fun d d' behind => evaluate_behind (inside body mem_cons_self)
        (fun _ => mem_symbols_of_child mem_cons_self) behind) of_blurred

end Expr

/-! ## One generator of a sum -/

/-- The steps before the generator see no difference, its domain gives the same values to either
name, and the steps behind it are renamed. -/
theorem bindings_renameGenerator {after : List GeneratorItem} {names : List String}
    (before : List GeneratorItem) (domain : Datum) (fresh : j ∉ names)
    (each : ∀ item ∈ after, ∀ t ∈ item.children, t.EvaluatesRenamed i j
      ∧ ∀ symbol ∈ t.symbols, symbol ∈ names)
    (unbound : j ∉ boundNames after) (c : Context) :
    Listing.Alike false (Behind i j after names)
      (bindings (before ++ .generator i domain :: after) c)
      (bindings (before ++ .generator j domain :: renameItems i j after) c) := by
  induction before generalizing c with
  | nil =>
    refine bindings_generator_alike ?_ fun v =>
      bindings_rename fresh each unbound (c.renamed_bind i j v)
    cases domain with
    | data value =>
      refine domainItems_alike (fun isExact => ?_) value
      cases isExact
    | tree => exact domainValues_alike of_blurred rfl ⟨rfl, of_blurred⟩
  | cons item _ ih =>
    cases item with
    | filter => exact bindings_filter_alike ⟨rfl, of_blurred⟩ (ih c)
    | generator name => exact bindings_generator_alike rfl fun v => ih (c.bind name v)

/-- **The names of generators do not matter.** Let a name neither occur as a bare name or key in a
sum over bindings nor be bound by a generator of it. The sum has a value if and only if it has this
value with one of its generators given that name, and all that refers to this generator renamed. -/
theorem renamed_generator_evaluates (body : Expr) (before after : List GeneratorItem)
    (domain : Datum) (i j : String) (ctx : Context)
    (fresh : j ∉ (Expr.sumOver body (before ++ .generator i domain :: after)).symbols)
    (unbound : j ∉ (Expr.sumOver body (before ++ .generator i domain :: after)).binders)
    (value : Value) :
    (Expr.sumOver body (before ++ .generator i domain :: after)).evaluate ctx = .ok value
      ↔ (Expr.renameGenerator body before i j domain after).evaluate ctx = .ok value := by
  set node := Expr.sumOver body (before ++ .generator i domain :: after) with isNode
  have inside : ∀ t ∈ node.children, t.EvaluatesRenamed i j := fun t mem =>
    t.evaluate_rename (fun known => fresh (Expr.mem_symbols_of_child mem known))
      fun known => unbound (Expr.mem_binders.mpr (.inr ⟨t, mem, known⟩))
  have later : ∀ item ∈ after, ∀ t ∈ item.children, t ∈ node.children := fun item mem t known =>
    mem_cons_of_mem _ (mem_flatMap.mpr ⟨item, by simp [mem], known⟩)
  have unbound' : j ∉ boundNames after := fun bound => unbound <| Expr.mem_binders.mpr <| .inl <| by
    simp only [isNode, Expr.boundHere, boundNames, filterMap_append, mem_append]
    exact .inr (mem_cons_of_mem _ bound)
  have listed := bindings_renameGenerator before domain fresh (fun item mem t known =>
    ⟨inside t (later item mem t known),
      fun _ => Expr.mem_symbols_of_child (later item mem t known)⟩) unbound' ctx
  have same : EvaluateAlike false ctx ctx node
      (Expr.renameGenerator body before i j domain after) :=
    .sumOver listed (fun d d' behind => evaluate_behind (inside body mem_cons_self)
      (fun _ => Expr.mem_symbols_of_child mem_cons_self) behind) of_blurred
  exact ok_iff_of_seen same.value

/-- Charges by step. One step is called like the generator, and the inner sum binds that name again
over a domain that still refers to the outer one. -/
def charges : Context where
  bindings := [("k", .int 9)]
  parameters :=
    { table := [("charge", .table [(.int 1, .int 5), (.int 2, .int 7), (.str "i", .int 100)])] }

def charged : Expr :=
  .arith .add (.lookup (.symbol "charge") (.symbol "i") false)
    (.arith .mul (.lookup (.symbol "charge") (.symbol "i") true)
      (.sumOver (.symbol "i") [.generator "i" (.tree (.range (.literal (.int 1)) (.symbol "i")))]))

theorem charged_renamed :
    let domain : Datum := .data (.tuple [.int 1, .int 2])
    let small : Expr → GeneratorItem := fun x => .filter (.compare .lt x (.literal (.int 3)))
    (Expr.sumOver charged [.generator "i" domain, small (.symbol "i")]).evaluate charges
        = .ok (.int 412)
      ∧ Expr.renameGenerator charged [] "i" "k" domain [small (.symbol "i")]
        = .sumOver
          (.arith .add (.lookup (.symbol "charge") (.symbol "k") false)
            (.arith .mul (.lookup (.symbol "charge") (.symbol "i") true)
              (.sumOver (.symbol "i")
                [.generator "i" (.tree (.range (.literal (.int 1)) (.symbol "k")))])))
          [.generator "k" domain, small (.symbol "k")]
      ∧ (Expr.renameGenerator charged [] "i" "k" domain [small (.symbol "i")]).evaluate charges
        = .ok (.int 412) :=
  ⟨rfl, rfl, (renamed_generator_evaluates charged [] _ _ "i" "k" charges (by decide) (by decide)
    (.int 412)).mp rfl⟩

end LinearProgram
