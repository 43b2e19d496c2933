import LinearProgram.Proofs.Outcome
import LinearProgram.Proofs.Run
import LinearProgram.Proofs.Trees

/-!
# What replacing wildcards does to a tree

A wildcard is replaced where it is an index or a key, by a literal; everything else of a tree stays
as it is. So a relation of trees that survives this node by node (`Expr.Replacing`) holds between a
tree and all its instances (`Wildcard.expand_replacing`).
-/

namespace LinearProgram

open List

variable {e : Expr}

namespace Expr

/-! ## Nodes -/

theorem mem_walk_self (e : Expr) : e ∈ e.walk := by
  rw [walk_eq]
  exact mem_cons_self

theorem mem_walk_of_child {c node : Expr} (mem : c ∈ e.children) (inside : node ∈ c.walk) :
    node ∈ e.walk := by
  rw [walk_eq]
  exact mem_cons_of_mem _ (mem_flatMap.mpr ⟨c, mem, inside⟩)

theorem mem_walk_trans : ∀ {c node : Expr}, c ∈ e.walk → node ∈ c.walk →
    node ∈ e.walk := by
  induction e using induction_on_children with
  | step e ih =>
    intro c node mem inside
    rw [walk_eq] at mem
    rcases mem_cons.mp mem with rfl | later
    · exact inside
    · obtain ⟨child, known, below⟩ := mem_flatMap.mp later
      exact mem_walk_of_child known (ih child known below inside)

/-- A tree has no marks but those of another. -/
def MarksWithin (label : Expr → Option String) (e e' : Expr) : Prop :=
  ∀ mark ∈ e'.walk.filterMap label, mark ∈ e.walk.filterMap label

theorem MarksWithin.of_walk {label : Expr → Option String} {c : Expr} (mem : c ∈ e.walk) :
    MarksWithin label e c := by
  intro mark inside
  obtain ⟨node, below, isMark⟩ := mem_filterMap.mp inside
  exact mem_filterMap.mpr ⟨node, mem_walk_trans mem below, isMark⟩

/-! ## Kinds of nodes -/

/-- Nodes that stay as they are: leaves, and scopes, which bind the wildcards inside them. -/
def isKept : Expr → Bool
  | literal _ | symbol _ | sum _ | sumOver _ _ | each _ | aggregate _ [_] => true
  | _ => false

/-- Nodes whose wildcards are those of their subtrees. -/
def isJoint : Expr → Bool
  | arith _ _ _ | compare _ _ _ | range _ _ | negate _ | abs _ | piecewise _ _ _ _
  | ifThenElse _ _ _ => true
  | aggregate _ args => args.length != 1
  | _ => false

/-- A node of the same kind over other subtrees. -/
def rebuild : Expr → List Expr → Expr
  | arith op _ _, [left, right] => arith op left right
  | compare op _ _, [left, right] => compare op left right
  | range _ _, [start, stop] => range start stop
  | negate _, [operand] => negate operand
  | abs _, [operand] => abs operand
  | piecewise _ breakpoints slopes offsets, [operand] =>
    piecewise operand breakpoints slopes offsets
  | aggregate op _, args => aggregate op args
  | ifThenElse _ _ _, [cond, yes, no] => ifThenElse cond yes no
  | e, _ => e

/-- Only references and lookups have wildcards of their own. -/
theorem induction_on_kinds {motive : Expr → Prop} (wildcard : motive wildcard)
    (kept : ∀ e, e.isKept = true → motive e)
    (ref : ∀ name indices, (∀ e ∈ indices, motive e) → motive (ref name indices))
    (lookup : ∀ container key dot, motive container → motive key →
      motive (lookup container key dot))
    (joint : ∀ e, e.isJoint = true → (∀ c ∈ e.children, motive c) → motive e) (e : Expr) :
    motive e := by
  induction e using induction_on_children with
  | step e ih =>
    cases e with
    | wildcard => exact wildcard
    | literal | symbol | sum | sumOver | each => exact kept _ rfl
    | ref name indices => exact ref name indices ih
    | lookup container key dot =>
      exact lookup container key dot (ih container mem_cons_self) (ih key (by simp [children]))
    | aggregate _ args =>
      rcases args with _ | ⟨first, _ | ⟨second, rest⟩⟩
      · exact joint _ rfl ih
      · exact kept _ rfl
      · exact joint _ rfl ih
    | _ => exact joint _ rfl ih

section Kinds

variable {values : List Value}

private theorem ok_nil : (.ok [] : Except Error (List Expr)) = pure [] := rfl

theorem isKept_of_isJoint (joint : e.isJoint = true) : e.isKept = false := by
  cases e with
  | aggregate _ args => rcases args with _ | ⟨_, _ | _⟩ <;> first | rfl | cases joint
  | _ => first | rfl | cases joint

theorem anyWildcard_eq_false {args : List Expr} :
    anyWildcard args = false ↔ ∀ e ∈ args, e.hasWildcard = false := by
  induction args with
  | nil => simp [anyWildcard]
  | cons _ _ ih => rw [anyWildcard, Bool.or_eq_false_iff, ih, forall_mem_cons]

theorem hasWildcard_of_isKept (kept : e.isKept = true) : e.hasWildcard = false := by
  unfold isKept at kept
  split at kept <;> first | rfl | cases kept

theorem hasWildcard_eq_false_iff (plain : e.isKept = false) :
    e.hasWildcard = false
      ↔ e.isWildcard = false ∧ ∀ c ∈ e.children, c.hasWildcard = false := by
  cases e with
  | literal | symbol | sum | sumOver | each => cases plain
  | aggregate _ args =>
    rcases args with _ | ⟨first, _ | ⟨second, rest⟩⟩
    · simp [hasWildcard, anyWildcard, isWildcard, children]
    · cases plain
    · exact anyWildcard_eq_false.trans (and_iff_right rfl).symm
  | ref => exact anyWildcard_eq_false.trans (and_iff_right rfl).symm
  | _ => simp [hasWildcard, isWildcard, children, and_assoc]

/-- No wildcard is in a tree that is none and has none in its subtrees. -/
theorem hasWildcard_of_children (filled : e.isWildcard = false)
    (closed : ∀ c ∈ e.children, c.hasWildcard = false) : e.hasWildcard = false := by
  cases kept : e.isKept with
  | true => exact hasWildcard_of_isKept kept
  | false => exact (hasWildcard_eq_false_iff kept).mpr ⟨filled, closed⟩

theorem carriers_of_isKept (kept : e.isKept = true) (inChain : Bool) :
    e.carriers inChain = .ok [] := by
  unfold isKept at kept
  split at kept <;> first | rfl | cases kept

theorem substituteStep_of_isKept (kept : e.isKept = true) :
    substituteStep values e = .ok (e, 0) := by
  unfold isKept at kept
  split at kept <;> first | rfl | cases kept

theorem carriers_of_isJoint (joint : e.isJoint = true) (inChain : Bool) :
    e.carriers inChain = carriersOfAll e.children := by
  cases e with
  | aggregate _ args =>
    rcases args with _ | ⟨first, _ | ⟨second, rest⟩⟩
    · rfl
    · cases joint
    · rfl
  | arith | compare | range | negate | abs | piecewise | ifThenElse =>
    simp [carriers, children, carriersOfAll, ok_nil]
  | _ => cases joint

theorem substituteStep_of_isJoint (joint : e.isJoint = true) :
    substituteStep values e
      = (substituteAll values e.children >>= fun new => pure (e.rebuild new, 0)) := by
  cases e with
  | aggregate _ args =>
    rcases args with _ | ⟨first, _ | ⟨second, rest⟩⟩
    · rfl
    · cases joint
    · rfl
  | arith | compare | range | negate | abs | piecewise | ifThenElse =>
    simp [substituteStep, children, substituteAll, rebuild, ok_nil]
  | _ => cases joint

end Kinds

/-! ## Replacing wildcards -/

/-- What may become of an index or a key: a wildcard becomes a literal of one of the values, any
other tree changes inside. -/
def Place (values : List Value) (R : Expr → Expr → Prop) (e e' : Expr) : Prop :=
  (e = wildcard ∧ ∃ value ∈ values, e' = literal value) ∨ R e e'

/-- What becomes of the other nodes: they keep their roots, over subtrees that are related. -/
inductive Renewed (values : List Value) (R : Expr → Expr → Prop) : Expr → Expr → Prop
  | ref {name : Value} {indices indices' : List Expr}
      (places : Forall₂ (Place values R) indices indices') :
      Renewed values R (ref name indices) (ref name indices')
  | lookup {container container' key key' : Expr} {dot : Bool} (inner : R container container')
      (place : Place values R key key') :
      Renewed values R (lookup container key dot) (lookup container' key' dot)
  | arith {op : Arithmetic} {left left' right right' : Expr} (first : R left left')
      (second : R right right') : Renewed values R (arith op left right) (arith op left' right')
  | compare {op : Comparison} {left left' right right' : Expr} (first : R left left')
      (second : R right right') : Renewed values R (compare op left right) (compare op left' right')
  | range {start start' stop stop' : Expr} (first : R start start') (second : R stop stop') :
      Renewed values R (range start stop) (range start' stop')
  | negate {operand operand' : Expr} (inner : R operand operand') :
      Renewed values R (negate operand) (negate operand')
  | abs {operand operand' : Expr} (inner : R operand operand') :
      Renewed values R (abs operand) (abs operand')
  | piecewise {operand operand' : Expr} {breakpoints slopes offsets : List Value}
      (inner : R operand operand') : Renewed values R
        (piecewise operand breakpoints slopes offsets)
        (piecewise operand' breakpoints slopes offsets)
  | aggregate {op : Aggregate} {args args' : List Expr} (several : ∀ arg, args ≠ [arg])
      (each : Forall₂ R args args') :
      Renewed values R (aggregate op args) (aggregate op args')
  | ifThenElse {cond cond' yes yes' no no' : Expr}
      (first : R cond cond') (second : R yes yes')
      (third : R no no') : Renewed values R
        (ifThenElse cond yes no) (ifThenElse cond' yes' no')

/-- A relation of trees that holds for a node if it holds for the subtrees. -/
structure Replacing (values : List Value) (R : Expr → Expr → Prop) : Prop where
  kept : ∀ e, e.isKept = true → R e e
  renewed : ∀ {e e'}, Renewed values R e e' → R e e'

section Replacing

variable {R : Expr → Expr → Prop} {values : List Value}

theorem Renewed.children {e' : Expr} (renewed : Renewed values R e e') :
    Forall₂ (Place values R) e.children e'.children := by
  cases renewed with
  | ref places => exact places
  | lookup inner place => exact .cons (.inr inner) (.cons place .nil)
  | arith first second | compare first second | range first second =>
    exact .cons (.inr first) (.cons (.inr second) .nil)
  | negate inner | abs inner | piecewise inner => exact .cons (.inr inner) .nil
  | aggregate _ each => exact each.imp fun _ _ => .inr
  | ifThenElse first second third =>
    exact .cons (.inr first) (.cons (.inr second) (.cons (.inr third) .nil))

/-- A node that keeps its mark has the marks of its subtrees. -/
theorem Renewed.marksWithin {e' : Expr} {label : Expr → Option String}
    (renewed : Renewed values R e e') (root : label e' = label e)
    (leaf : ∀ v, label (literal v) = none)
    (inside : ∀ {c c'}, R c c' → MarksWithin label c c') : MarksWithin label e e' := by
  intro mark mem
  rcases mem_filterMap_walk.mp mem with here | ⟨c', below, known⟩
  · exact mem_filterMap_walk.mpr (.inl (root ▸ here))
  · obtain ⟨c, below', ⟨-, value, -, rfl⟩ | related⟩ :=
      exists_of_forall₂ renewed.children.flip below
    · rcases mem_filterMap_walk.mp known with here | ⟨_, ⟨⟩, -⟩
      cases (leaf value).symm.trans here
    · exact mem_filterMap_walk.mpr (.inr ⟨c, below', inside related mark known⟩)

theorem Renewed.isConstant {e' : Expr} (renewed : Renewed values R e e')
    (inside : ∀ {c c'}, R c c' → c.isConstant = true → c'.isConstant = true)
    (constant : e.isConstant = true) : e'.isConstant = true := by
  have root : e'.isOpen = e.isOpen := by cases renewed <;> rfl
  rw [isConstant_eq, Bool.and_eq_true, all_eq_true] at constant ⊢
  refine ⟨by rw [root]; exact constant.1, fun c' below => ?_⟩
  obtain ⟨c, below', ⟨-, value, -, rfl⟩ | related⟩ :=
    exists_of_forall₂ renewed.children.flip below
  · rfl
  · exact inside related (constant.2 c below')

theorem replacing_symbols : Replacing values (MarksWithin symbol?) where
  kept _ _ _ := id
  renewed renewed := renewed.marksWithin (by cases renewed <;> rfl) (fun _ => rfl) id

theorem Renewed.family? {e' : Expr} (renewed : Renewed values R e e') :
    e'.family? = e.family? := by
  cases renewed with
  | @ref name => cases name <;> rfl
  | _ => rfl

theorem replacing_families : Replacing values (MarksWithin family?) where
  kept _ _ _ := id
  renewed renewed := renewed.marksWithin renewed.family? (fun _ => rfl) id

theorem substituteAll_eq_mapM (values : List Value) (trees : List Expr) :
    substituteAll values trees = trees.mapM (substitute values) := by
  induction trees with
  | nil => rfl
  | cons _ _ ih => simp [substituteAll, mapM_cons, ih, substitute]

theorem substituteIndices_related {indices indices' : List Expr} {used : Nat}
    (each : ∀ e ∈ indices, ∀ {e' used}, substituteStep values e = .ok (e', used) → R e e')
    (replaced : substituteIndices values indices used = .ok indices') :
    Forall₂ (Place values R) indices indices' := by
  induction indices generalizing indices' used with
  | nil =>
    cases replaced
    exact .nil
  | cons _ _ ih =>
    rw [forall_mem_cons] at each
    unfold substituteIndices at replaced
    split at replaced
    · split at replaced
      case h_1 value found =>
        obtain ⟨others, later, done⟩ := bind_eq_ok.mp replaced
        cases done
        exact .cons (.inl ⟨rfl, value, mem_of_getElem? found, rfl⟩) (ih each.2 later)
      case h_2 => exact absurd replaced (breakDown_ne_ok _ _)
    · obtain ⟨⟨first, _⟩, here, replaced⟩ := bind_eq_ok.mp replaced
      obtain ⟨others, later, done⟩ := bind_eq_ok.mp replaced
      cases done
      exact .cons (.inr (each.1 here)) (ih each.2 later)

theorem Renewed.of_isJoint (joint : e.isJoint = true) {new : List Expr}
    (related : Forall₂ R e.children new) : Renewed values R e (e.rebuild new) := by
  cases e with
  | arith | compare | range =>
    rcases related with _ | ⟨first, _ | ⟨second, ⟨⟩⟩⟩
    constructor <;> assumption
  | negate | abs | piecewise =>
    rcases related with _ | ⟨inner, ⟨⟩⟩
    constructor
    assumption
  | ifThenElse =>
    rcases related with _ | ⟨first, _ | ⟨second, _ | ⟨third, ⟨⟩⟩⟩⟩
    exact .ifThenElse first second third
  | aggregate =>
    refine .aggregate ?_ related
    rintro arg rfl
    cases joint
  | _ => cases joint

/-- What holds node by node holds between a tree and what becomes of it. -/
theorem substituteStep_replacing (replacing : Replacing values R) (e : Expr) :
    ∀ {e' : Expr} {used : Nat}, substituteStep values e = .ok (e', used) → R e e' := by
  induction e using induction_on_kinds with
  | wildcard => exact fun replaced => absurd replaced (raise_ne_ok _ _)
  | kept e kept =>
    intro e' used replaced
    rw [substituteStep_of_isKept kept] at replaced
    cases replaced
    exact replacing.kept e kept
  | ref _ _ ih =>
    intro e' used replaced
    obtain ⟨new, replaced', done⟩ := bind_eq_ok.mp replaced
    cases done
    exact replacing.renewed (.ref (substituteIndices_related ih replaced'))
  | lookup _ _ _ inner outer =>
    intro e' used replaced
    obtain ⟨⟨c, count⟩, first, replaced⟩ := bind_eq_ok.mp replaced
    dsimp only at replaced
    split at replaced
    · split at replaced
      case h_1 value found =>
        cases replaced
        exact replacing.renewed
          (.lookup (inner first) (.inl ⟨rfl, value, mem_of_getElem? found, rfl⟩))
      case h_2 => exact absurd replaced (breakDown_ne_ok _ _)
    · obtain ⟨⟨k, _⟩, second, done⟩ := bind_eq_ok.mp replaced
      cases done
      exact replacing.renewed (.lookup (inner first) (.inr (outer second)))
  | joint e joint ih =>
    intro e' used replaced
    rw [substituteStep_of_isJoint joint] at replaced
    obtain ⟨new, replaced', done⟩ := bind_eq_ok.mp replaced
    cases done
    rw [substituteAll_eq_mapM] at replaced'
    refine replacing.renewed (.of_isJoint joint
      (forall₂_of_mapM replaced' fun c mem c' single => ?_))
    obtain ⟨⟨_, _⟩, step, done⟩ := bind_eq_ok.mp single
    cases done
    exact ih c mem step

theorem substitute_replacing (replacing : Replacing values R) {e e' : Expr}
    (replaced : e.substitute values = .ok e') : R e e' := by
  obtain ⟨⟨new, _⟩, step, done⟩ := bind_eq_ok.mp replaced
  cases done
  exact substituteStep_replacing replacing e step

end Replacing

/-! ## Carriers -/

/-- How a tree is related to all its carriers. -/
def CarriersAll (P : Expr → Expr → Prop) (e : Expr) : Prop :=
  ∀ {inChain : Bool} {found : List Expr}, e.carriers inChain = .ok found → ∀ c ∈ found, P e c

section Carriers

variable {P : Expr → Expr → Prop} {found : List Expr}

theorem carriersOfAll_eq_mapM (trees : List Expr) :
    carriersOfAll trees = trees.mapM (carriers false) >>= fun parts => pure parts.flatten := by
  induction trees with
  | nil => rfl
  | cons _ _ ih => simp [carriersOfAll, mapM_cons, ih]

/-- A wildcard has no carriers of its own, any other index is a tree. -/
theorem carriersOfIndices_eq_carriersOfAll (indices : List Expr) :
    carriersOfIndices indices = carriersOfAll (indices.filter fun e => !e.isWildcard) := by
  induction indices with
  | nil => rfl
  | cons e _ ih =>
    unfold carriersOfIndices
    cases e <;> simp [ih, isWildcard, carriersOfAll]

theorem carriersOfAll_forall {args : List Expr} (each : ∀ e ∈ args, CarriersAll P e)
    (listed : carriersOfAll args = .ok found) : ∀ c ∈ found, ∃ e ∈ args, P e c := by
  rw [carriersOfAll_eq_mapM] at listed
  obtain ⟨parts, separate, done⟩ := bind_eq_ok.mp listed
  cases done
  intro c mem
  obtain ⟨part, known, inside⟩ := mem_flatten.mp mem
  obtain ⟨e, arg, all⟩ := exists_of_forall₂
    (forall₂_of_mapM separate fun e arg part single => each e arg single).flip known
  exact ⟨e, arg, all c inside⟩

/-- The carriers of a tree are references and chains that have wildcards of their own, in the tree
or below it. -/
theorem carriers_forall
    (references : ∀ name indices, indices.any isWildcard = true →
      P (ref name indices) (ref name indices))
    (chains : ∀ container key dot, (lookup container key dot).wildcardSteps ≠ [] →
      P (lookup container key dot) (lookup container key dot))
    (below : ∀ {e child c}, e.isKept = false → child ∈ e.children → P child c → P e c) (e : Expr) :
    CarriersAll P e := by
  induction e using induction_on_kinds with
  | wildcard => exact fun listed => absurd listed (raise_ne_ok _ _)
  | kept e kept =>
    intro inChain found listed
    rw [carriers_of_isKept kept] at listed
    cases listed
    simp
  | ref name indices ih =>
    intro inChain found listed
    obtain ⟨inner, listed', done⟩ := bind_eq_ok.mp listed
    cases done
    have within : ∀ c ∈ inner, P (ref name indices) c := by
      intro c mem
      rw [carriersOfIndices_eq_carriersOfAll] at listed'
      obtain ⟨_, known, related⟩ :=
        carriersOfAll_forall (fun e mem => ih e (mem_filter.mp mem).1) listed' c mem
      exact below rfl (mem_filter.mp known).1 related
    split
    · exact forall_mem_cons.mpr ⟨references name indices ‹_›, within⟩
    · exact within
  | lookup container key dot inner outer =>
    intro inChain found listed
    obtain ⟨root, first, listed⟩ := bind_eq_ok.mp listed
    -- the chain itself, its root, or its keys
    obtain ⟨keys, inKeys, done⟩ : ∃ keys : List Expr,
        (∀ c ∈ keys, P (lookup container key dot) c)
        ∧ (if !inChain && !(lookup container key dot).wildcardSteps.isEmpty then
            lookup container key dot :: (root ++ keys) else root ++ keys) = found := by
      dsimp only at listed
      split at listed
      · cases listed
        exact ⟨[], by simp, rfl⟩
      · obtain ⟨keys, second, done⟩ := bind_eq_ok.mp listed
        cases done
        exact ⟨keys, fun c mem => below rfl (by simp [children]) (outer second c mem), rfl⟩
    have both := forall_mem_append.mpr
      ⟨fun c mem => below rfl mem_cons_self (inner first c mem), inKeys⟩
    rw [← done]
    split
    case isTrue isChain =>
      rw [Bool.and_eq_true, Bool.not_eq_true', Bool.not_eq_true', isEmpty_eq_false_iff]
        at isChain
      exact forall_mem_cons.mpr ⟨chains container key dot isChain.2, both⟩
    · exact both
  | joint e joint ih =>
    intro inChain found listed c mem
    rw [carriers_of_isJoint joint] at listed
    obtain ⟨_, known, related⟩ := carriersOfAll_forall ih listed c mem
    exact below (isKept_of_isJoint joint) known related

theorem carriers_mem_walk (e : Expr) : CarriersAll (fun e c => c ∈ e.walk) e :=
  carriers_forall (P := fun e c => c ∈ e.walk) (fun _ _ _ => mem_walk_self _)
    (fun _ _ _ _ => mem_walk_self _) (fun _ => mem_walk_of_child) e

end Carriers

/-! ## Values for wildcards -/

mutual

/-- How many values the wildcards of a tree need, outside all scopes. -/
def needs : Expr → Nat
  | wildcard | literal _ | symbol _ | sum _ | sumOver _ _ | each _ => 0
  | ref _ indices => max (indices.countP isWildcard) (needsAll indices)
  | lookup container key dot =>
    max (lookup container key dot).wildcardSteps.length (max (needs container) (needs key))
  | arith _ left right | compare _ left right | range left right => max (needs left) (needs right)
  | negate operand | abs operand | piecewise operand _ _ _ => needs operand
  | aggregate _ [_] => 0
  | aggregate _ args => needsAll args
  | ifThenElse cond yes no =>
    max (needs cond) (max (needs yes) (needs no))

def needsAll : List Expr → Nat
  | [] => 0
  | e :: rest => max (needs e) (needsAll rest)

end

theorem needsAll_le_iff {trees : List Expr} {bound : Nat} :
    needsAll trees ≤ bound ↔ ∀ e ∈ trees, e.needs ≤ bound := by
  induction trees with
  | nil => simp [needsAll]
  | cons _ _ ih => rw [needsAll, Nat.max_le, ih, forall_mem_cons]

theorem needs_of_isKept (kept : e.isKept = true) : e.needs = 0 := by
  unfold isKept at kept
  split at kept <;> first | rfl | cases kept

theorem needs_of_isJoint (joint : e.isJoint = true) : e.needs = needsAll e.children := by
  cases e with
  | aggregate _ args => rcases args with _ | ⟨_, _ | _⟩ <;> first | rfl | cases joint
  | arith | compare | range | negate | abs | piecewise | ifThenElse =>
    simp [needs, needsAll, children]
  | _ => cases joint

theorem length_wildcardSteps (container key : Expr) (dot : Bool) :
    (lookup container key dot).wildcardSteps.length
      = container.wildcardSteps.length + if key.isWildcard then 1 else 0 := by
  rw [wildcardSteps, length_append]
  split <;> rfl

theorem wildcardSteps_of_isJoint (joint : e.isJoint = true) : e.wildcardSteps = [] := by
  cases e <;> first | rfl | cases joint

section Failures

variable {allowed : Error → Prop} {values : List Value}
  (misplaced : allowed (.refused .misplacedWildcard))

include misplaced in
/-- Only a wildcard that is neither an index nor a key is in the way of the search for carriers. -/
theorem failsOnly_carriers (e : Expr) : ∀ inChain, FailsOnly allowed (e.carriers inChain) := by
  induction e using induction_on_kinds with
  | wildcard => exact fun _ => misplaced
  | kept e kept => simp [carriers_of_isKept kept]
  | ref _ indices ih =>
    have inner : FailsOnly allowed
        ((indices.filter fun e => !e.isWildcard).mapM (carriers false)) :=
      .mapM fun e mem => ih e (mem_filter.mp mem).1 false
    simp [carriers, carriersOfIndices_eq_carriersOfAll, carriersOfAll_eq_mapM, inner]
  | lookup _ _ _ inner outer =>
    intro inChain
    refine failsOnly_bind.mpr ⟨inner true, fun root _ => ?_⟩
    dsimp only
    split <;> simp [outer]
  | joint e joint ih =>
    have inner : FailsOnly allowed (e.children.mapM (carriers false)) :=
      .mapM fun c mem => ih c mem false
    simp [carriers_of_isJoint joint, carriersOfAll_eq_mapM, inner]

theorem failsOnly_substitute_of {post : Expr × Nat → Prop}
    (step : Ends post allowed (substituteStep values e)) :
    FailsOnly allowed (e.substitute values) := by
  simp [substitute, step.failsOnly]

theorem substituteIndices_failsOnly {indices : List Expr} (used : Nat)
    (each : ∀ e ∈ indices, FailsOnly allowed (e.substitute values))
    (left : used + indices.countP isWildcard ≤ values.length ∨ allowed (.broken .exhausted)) :
    FailsOnly allowed (substituteIndices values indices used) := by
  induction indices generalizing used with
  | nil => exact trivial
  | cons _ _ ih =>
    rw [forall_mem_cons] at each
    rw [countP_cons] at left
    unfold substituteIndices
    split
    case h_1 =>
      simp only [isWildcard, if_true] at left
      cases found : values[used]? with
      | some => simp [ih (used + 1) each.2 (left.imp_left fun left => by omega)]
      | none =>
        rw [List.getElem?_eq_none_iff] at found
        exact left.resolve_left (by omega)
    case h_2 =>
      have here := each.1
      simp only [substitute, failsOnly_bind] at here
      simp [here.1, ih used each.2 (left.imp_left fun left => by omega)]

include misplaced in
/-- Replacing wildcards runs out of values only where some are nested, and counts those that the
steps of a chain have used up. -/
theorem substituteStep_ends (enough : e.needs ≤ values.length
    ∨ allowed (.broken .outOfRange) ∧ allowed (.broken .exhausted)) :
    Ends (fun result => result.2 = e.wildcardSteps.length) allowed (substituteStep values e) := by
  induction e using induction_on_kinds with
  | wildcard => exact misplaced
  | kept e kept =>
    rw [substituteStep_of_isKept kept]
    cases e <;> first | rfl | cases kept
  | ref _ _ ih =>
    rw [needs, Nat.max_le, needsAll_le_iff] at enough
    have inner := substituteIndices_failsOnly 0
      (fun e mem => failsOnly_substitute_of (ih e mem (enough.imp_left (·.2 e mem))))
      (by simpa using enough.imp And.left And.right)
    exact (inner.ends fun _ _ => trivial).bind fun new _ _ => rfl
  | lookup container key dot inner outer =>
    rw [needs, Nat.max_le, Nat.max_le] at enough
    rw [substituteStep]
    refine (inner (enough.imp_left (·.2.1))).bind fun replaced _ count => ?_
    obtain ⟨c, used⟩ := replaced
    subst count
    have steps := length_wildcardSteps container key dot
    cases key with
    | wildcard =>
      dsimp only
      cases found : values[container.wildcardSteps.length]? with
      | some => exact steps.symm
      | none =>
        rw [List.getElem?_eq_none_iff] at found
        rw [steps, isWildcard, if_pos rfl] at enough
        exact (enough.resolve_left fun enough => by omega).1
    | _ => exact (outer (enough.imp_left (·.2.2))).bind fun k _ _ => steps.symm
  | joint e joint ih =>
    rw [needs_of_isJoint joint, needsAll_le_iff] at enough
    rw [substituteStep_of_isJoint joint, wildcardSteps_of_isJoint joint, substituteAll_eq_mapM]
    have inner : FailsOnly allowed (e.children.mapM (substitute values)) := .mapM fun c mem =>
      failsOnly_substitute_of (ih c mem (enough.imp_left (· c mem)))
    exact (inner.ends fun _ _ => trivial).bind fun new _ _ => rfl

include misplaced in
theorem failsOnly_substitute (enough : e.needs ≤ values.length
    ∨ allowed (.broken .outOfRange) ∧ allowed (.broken .exhausted)) :
    FailsOnly allowed (e.substitute values) :=
  failsOnly_substitute_of (substituteStep_ends misplaced enough)

end Failures

theorem wildcardSteps_mem_walk {step : Expr} (mem : step ∈ e.wildcardSteps) : step ∈ e.walk := by
  induction e using induction_on_children with
  | step e ih =>
    cases e with
    | lookup container =>
      rw [wildcardSteps] at mem
      rcases mem_append.mp mem with inner | last
      · exact mem_walk_of_child mem_cons_self (ih container mem_cons_self inner)
      · split at last
        · rw [mem_singleton.mp last]
          exact mem_walk_self _
        · exact absurd last not_mem_nil
    | _ => exact absurd mem not_mem_nil

end Expr

namespace Wildcard

variable {registry : Option Model} {ctx : Context} {e : Expr} {references : List Expr}

/-- The running maximum is where it started or at one of the carriers. -/
theorem roles_from (carriers : List Expr) (n : Nat) :
    n ≤ carriers.foldl (fun n c => max n c.wildcardCount) n
      ∧ (∀ c ∈ carriers, c.wildcardCount ≤ carriers.foldl (fun n c => max n c.wildcardCount) n)
      ∧ (carriers.foldl (fun n c => max n c.wildcardCount) n = n
        ∨ ∃ c ∈ carriers, c.wildcardCount
          = carriers.foldl (fun n c => max n c.wildcardCount) n) := by
  induction carriers generalizing n with
  | nil => exact ⟨Nat.le_refl n, by simp, .inl rfl⟩
  | cons c _ ih =>
    obtain ⟨above, each, attained⟩ := ih (max n c.wildcardCount)
    rw [foldl_cons]
    refine ⟨by omega, forall_mem_cons.mpr ⟨by omega, each⟩, ?_⟩
    rcases attained with start | ⟨other, mem, same⟩
    · by_cases more : n ≤ c.wildcardCount
      · exact .inr ⟨c, mem_cons_self, by omega⟩
      · exact .inl (by omega)
    · exact .inr ⟨other, mem_cons_of_mem c mem, same⟩

/-- Whether a tuple is checked and makes all references declared. -/
def passes (registry : Option Model) (ctx : Context) (references : List Expr)
    (t : List Value) : Bool :=
  match allDeclared registry ctx t references with
  | .ok declared => declared
  | .error _ => false

theorem passes_iff {t : List Value} :
    passes registry ctx references t = true
      ↔ allDeclared registry ctx t references = .ok true := by
  unfold passes
  cases allDeclared registry ctx t references <;> simp

/-- All tuples are checked, and those that pass are kept in order, with the instances they give. -/
theorem expandAll_passing {done instances : List Expr} {listed : List (List Value)}
    (folded : listed.foldlM (fun (done : List Expr) values => do
      if ← allDeclared registry ctx values references then
        let instance_ ← e.substitute values
        pure (done ++ [instance_])
      else pure done) done = Except.ok instances) :
    (∀ t ∈ listed, ∃ declared, allDeclared registry ctx t references = .ok declared)
      ∧ ∃ built, instances = done ++ built
        ∧ Forall₂ (fun t i => e.substitute t = .ok i)
          (listed.filter (passes registry ctx references)) built := by
  induction listed generalizing done with
  | nil =>
    cases folded
    exact ⟨by simp, [], (append_nil _).symm, .nil⟩
  | cons t _ ih =>
    rw [foldlM_cons] at folded
    obtain ⟨next, here, folded⟩ := bind_eq_ok.mp folded
    obtain ⟨declared, checked, here⟩ := bind_eq_ok.mp here
    obtain ⟨others, built, rfl, replaced⟩ := ih folded
    have verdict : passes registry ctx references t = declared := by rw [passes, checked]
    refine ⟨forall_mem_cons.mpr ⟨⟨declared, checked⟩, others⟩, ?_⟩
    rw [filter_cons, verdict]
    cases declared with
    | false =>
      cases here
      exact ⟨built, rfl, replaced⟩
    | true =>
      obtain ⟨i, first, here⟩ := bind_eq_ok.mp here
      cases here
      exact ⟨i :: built, by simp, .cons first replaced⟩

/-- What a tree expands to is the tree itself, or the tree with its wildcards replaced. -/
theorem expand_mem {instances : List Expr} (expanded : expand registry ctx e = .ok instances) :
    ∀ i ∈ instances, i = e ∨ ∃ values, e.substitute values = .ok i := by
  obtain ⟨carriers, -, expanded⟩ := bind_eq_ok.mp expanded
  split at expanded
  · cases expanded
    exact fun i mem => .inl (mem_singleton.mp mem)
  · obtain ⟨all, folded, done⟩ := bind_eq_ok.mp expanded
    split at done
    · cases done
    · cases done
      obtain ⟨-, built, rfl, replaced⟩ := expandAll_passing folded
      intro i mem
      obtain ⟨values, -, done⟩ := exists_of_forall₂ replaced.flip mem
      exact .inr ⟨values, done⟩

/-- What holds node by node holds between a tree and all that it expands to. -/
theorem expand_replacing {R : Expr → Expr → Prop} (refl : ∀ e, R e e)
    (replacing : ∀ {values}, Expr.Replacing values R) {instances : List Expr}
    (expanded : expand registry ctx e = .ok instances) :
    ∀ i ∈ instances, R e i := by
  intro i mem
  rcases expand_mem expanded i mem with rfl | ⟨values, replaced⟩
  · exact refl i
  · exact Expr.substitute_replacing replacing replaced

end Wildcard

end LinearProgram
