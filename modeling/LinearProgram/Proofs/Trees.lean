import LinearProgram.Expr.Basic

/-!
# Nodes of trees

The walk over a tree visits a node and then the walks of its subtrees (`Expr.walk_eq`), so what is
said of all nodes can be said node by node. Inductions on trees go over the subtrees of a node
(`Expr.induction_on_children`), whatever list they stand in.
-/

namespace LinearProgram

open List

variable {c e : Expr}

namespace Expr

theorem weight_le_weightAll {trees : List Expr} (mem : c ∈ trees) :
    c.weight ≤ weightAll trees := by
  induction trees with
  | nil => exact absurd mem not_mem_nil
  | cons _ _ ih =>
    rw [weightAll_cons]
    rcases mem_cons.mp mem with rfl | later
    · exact Nat.le_add_right _ _
    · exact Nat.le_trans (ih later) (Nat.le_add_left _ _)

theorem weight_lt_of_child (mem : c ∈ e.children) : c.weight < e.weight := by
  have lighter := weight_le_weightAll mem
  rw [weight_eq_children e]
  omega

/-- A property of trees that a node has whenever its subtrees have it. -/
theorem induction_on_children {P : Expr → Prop} (step : ∀ e, (∀ c ∈ e.children, P c) → P e)
    (e : Expr) : P e := by
  refine step e fun c mem => ?_
  have lighter := weight_lt_of_child mem
  exact induction_on_children step c
termination_by e.weight

/-- With enough fuel, a work list is walked tree by tree. -/
theorem walkAll_eq (fuel : Nat) (work : List Expr) (enough : weightAll work ≤ fuel) :
    walkAll fuel work = work.flatMap walk := by
  induction fuel using Nat.strongRecOn generalizing work with
  | _ fuel ih =>
    cases work with
    | nil => cases fuel <;> rfl
    | cons e =>
      have weigh := weight_eq_children e
      rw [weightAll_cons] at enough
      obtain ⟨fuel, rfl⟩ : ∃ n, fuel = n + 1 := ⟨fuel - 1, by omega⟩
      -- the walk of the node itself is a walk with less fuel
      have node : walk e = e :: e.children.flatMap walk := by
        rw [walk, weigh, Nat.add_comm, walkAll, append_nil,
          ih _ (by omega) e.children (Nat.le_refl _)]
      rw [walkAll, ih fuel (by omega) _ (by rw [weightAll_append]; omega), flatMap_append,
        flatMap_cons, node, cons_append]

/-- The walk over a tree: the node, then its subtrees. -/
theorem walk_eq (e : Expr) : e.walk = e :: e.children.flatMap walk := by
  have whole := walkAll_eq e.weight [e] (by simp)
  rw [weight_eq_children, Nat.add_comm, walkAll, append_nil,
    walkAll_eq _ e.children (Nat.le_refl _)] at whole
  simpa using whole.symm

/-- A tree is constant when its root is closed and its subtrees are constant. -/
theorem isConstant_eq (e : Expr) :
    e.isConstant = (!e.isOpen && e.children.all isConstant) := by
  rw [isConstant, walk_eq, all_cons, all_flatMap]
  rfl

theorem isConstant_of_child (constant : e.isConstant = true) (mem : c ∈ e.children) :
    c.isConstant = true := by
  rw [isConstant_eq, Bool.and_eq_true] at constant
  exact all_eq_true.mp constant.2 c mem

/-- A mark that some node of a tree has is the mark of its root or of a node of a subtree. -/
theorem mem_filterMap_walk {label : Expr → Option String} {mark : String} :
    mark ∈ e.walk.filterMap label
      ↔ label e = some mark ∨ ∃ c ∈ e.children, mark ∈ c.walk.filterMap label := by
  simp only [mem_filterMap, walk_eq e, mem_cons, mem_flatMap]
  constructor
  · rintro ⟨node, rfl | ⟨c, mem, inside⟩, found⟩
    · exact .inl found
    · exact .inr ⟨c, mem, node, inside, found⟩
  · rintro (found | ⟨c, mem, node, inside, found⟩)
    · exact ⟨e, .inl rfl, found⟩
    · exact ⟨node, .inr ⟨c, mem, inside⟩, found⟩

/-- The family that a node refers to. -/
def family? : Expr → Option String
  | ref (.str family) _ => some family
  | _ => none

/-- The families that a tree refers to. -/
def families (e : Expr) : List String := e.walk.filterMap family?

theorem mem_families {family : String} :
    family ∈ e.families ↔ e.family? = some family ∨ ∃ c ∈ e.children, family ∈ c.families :=
  mem_filterMap_walk

theorem mem_families_of_child {family : String} (mem : c ∈ e.children)
    (inside : family ∈ c.families) : family ∈ e.families :=
  mem_families.mpr (.inr ⟨c, mem, inside⟩)

/-- The bare name that a node is. -/
def symbol? : Expr → Option String
  | symbol name => some name
  | _ => none

/-- The bare names of a tree. -/
def symbols (e : Expr) : List String := e.walk.filterMap symbol?

theorem mem_symbols {name : String} :
    name ∈ e.symbols ↔ e.symbol? = some name ∨ ∃ c ∈ e.children, name ∈ c.symbols :=
  mem_filterMap_walk

theorem mem_symbols_of_child {name : String} (mem : c ∈ e.children)
    (inside : name ∈ c.symbols) : name ∈ e.symbols :=
  mem_symbols.mpr (.inr ⟨c, mem, inside⟩)

end Expr

end LinearProgram
