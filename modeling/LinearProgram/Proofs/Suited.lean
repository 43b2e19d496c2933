import LinearProgram.Proofs.Ranks
import LinearProgram.Proofs.Substitution

/-!
# Trees that suit their data

Which failures outside the announced kinds a tree can meet is read off the tree and the parameters.
Indices and keys have to have rank zero (`Expr.rank`, `Expr.isSuited`); filters and containers of
wildcards must not mention a decision variable (`Expr.hasOpenCondition`); and a container must not
need more wildcards than come before it in its chain (`Expr.hasNestedWildcard`).
-/

namespace LinearProgram

open List
open Bool (and_eq_true)
open Option (isSome_iff_exists)

variable {e : Expr}

/-! ## Depth of trees -/

/-- What is known of the names in scope: how deep the values of bound names and of parameters go. -/
structure Ranks where
  bound : String → Option Nat := fun _ => none
  parameters : String → Nat

namespace Ranks

def ofParameters (params : Parameters) : Ranks where
  parameters name := ((params.table.get? name).map Value.rank).getD 0

def bind (ranks : Ranks) (name : String) (n : Nat) : Ranks :=
  { ranks with bound := fun other => if other = name then some n else ranks.bound other }

end Ranks

/-- The depth of a tree's value. -/
def Expr.rank (ranks : Ranks) : Expr → Nat
  | literal value => value.rank
  | symbol name => (ranks.bound name).getD (ranks.parameters name)
  | lookup container _ _ => rank ranks container - 1
  | range _ _ => 1
  | ifThenElse _ yes no => max (rank ranks yes) (rank ranks no)
  | wildcard | ref _ _ | arith _ _ _ | negate _ | compare _ _ _ | sum _ | sumOver _ _ | each _
  | abs _ | aggregate _ _ | piecewise _ _ _ _ => 0

/-- The depth of a key. A bare name that is not bound stands for itself. -/
def Expr.keyRank (ranks : Ranks) : Expr → Nat
  | symbol name => (ranks.bound name).getD 0
  | e => e.rank ranks

def Datum.rank (ranks : Ranks) : Datum → Nat
  | data value => value.rank
  | tree e => e.rank ranks

/-- What is known behind a generator, whose name stands for an item of its domain. -/
def Ranks.after (ranks : Ranks) : GeneratorItem → Ranks
  | .generator name domain => ranks.bind name (domain.rank ranks - 1)
  | .filter _ => ranks

def Ranks.behind (ranks : Ranks) (gens : List GeneratorItem) : Ranks :=
  gens.foldl Ranks.after ranks

namespace Expr

mutual

/-- Whether indices and keys can serve as such, families are named by text and piecewise linear
functions are made of numbers. -/
def isSuited (ranks : Ranks) : Expr → Bool
  | wildcard | literal _ | symbol _ => true
  | ref name indices =>
    name.str?.isSome && areSuited ranks indices && indices.all fun index => index.rank ranks == 0
  | lookup container key _ =>
    isSuited ranks container && isSuited ranks key && key.keyRank ranks == 0
  | arith _ left right | compare _ left right | range left right =>
    isSuited ranks left && isSuited ranks right
  | negate operand | each operand | abs operand => isSuited ranks operand
  | sum args | aggregate _ args => areSuited ranks args
  | sumOver body gens =>
    itemsSuited ranks gens && isSuited (ranks.behind gens) body
  | ifThenElse cond yes no =>
    isSuited ranks cond && isSuited ranks yes && isSuited ranks no
  | piecewise operand breakpoints slopes offsets =>
    isSuited ranks operand && (breakpoints ++ slopes ++ offsets).all (·.number?.isSome)

def areSuited (ranks : Ranks) : List Expr → Bool
  | [] => true
  | e :: rest => isSuited ranks e && areSuited ranks rest

def itemsSuited (ranks : Ranks) : List GeneratorItem → Bool
  | [] => true
  | item :: rest => itemSuited ranks item && itemsSuited (ranks.after item) rest

def itemSuited (ranks : Ranks) : GeneratorItem → Bool
  | .generator _ domain => datumSuited ranks domain
  | .filter cond => isSuited ranks cond

def datumSuited (ranks : Ranks) : Datum → Bool
  | .data _ => true
  | .tree e => isSuited ranks e

end

theorem areSuited_iff {ranks : Ranks} {trees : List Expr} :
    areSuited ranks trees = true ↔ ∀ e ∈ trees, e.isSuited ranks = true := by
  induction trees with
  | nil => simp [areSuited]
  | cons _ _ ih => simp [areSuited, ih]

mutual

/-- A suited tree has a written form. -/
theorem isSome_text {ranks : Ranks} (e : Expr) (suited : e.isSuited ranks = true) :
    e.text?.isSome = true := by
  match e with
  | wildcard | literal _ | symbol _ => rfl
  | ref name [] =>
    simp only [isSuited, and_eq_true] at suited
    exact suited.1.1
  | ref name (index :: rest) =>
    simp only [isSuited, and_eq_true] at suited
    have indices := isSome_textAll (index :: rest) suited.1.2
    obtain ⟨texts, areTexts⟩ := isSome_iff_exists.mp indices
    simp [text?, areTexts]
  | lookup container key dot =>
    simp only [isSuited, and_eq_true] at suited
    obtain ⟨c, isText⟩ := isSome_iff_exists.mp (isSome_text container suited.1.1)
    obtain ⟨k, isText'⟩ := isSome_iff_exists.mp (isSome_text key suited.1.2)
    simp [text?, isText, isText']
  | arith _ left right | compare _ left right | range left right =>
    simp only [isSuited, and_eq_true] at suited
    obtain ⟨l, isText⟩ := isSome_iff_exists.mp (isSome_text left suited.1)
    obtain ⟨r, isText'⟩ := isSome_iff_exists.mp (isSome_text right suited.2)
    simp [text?, isText, isText']
  | negate operand | each operand | abs operand =>
    obtain ⟨t, isText⟩ := isSome_iff_exists.mp (isSome_text operand suited)
    simp [text?, isText]
  | sum args | aggregate _ args =>
    obtain ⟨texts, areTexts⟩ := isSome_iff_exists.mp (isSome_textAll args suited)
    simp [text?, areTexts]
  | sumOver body gens =>
    simp only [isSuited, and_eq_true] at suited
    obtain ⟨b, isText⟩ := isSome_iff_exists.mp (isSome_text body suited.2)
    obtain ⟨g, areTexts⟩ := isSome_iff_exists.mp (isSome_textItems gens suited.1)
    simp [text?, isText, areTexts]
  | ifThenElse cond yes no =>
    simp only [isSuited, and_eq_true] at suited
    obtain ⟨c, isText⟩ := isSome_iff_exists.mp (isSome_text cond suited.1.1)
    obtain ⟨t, isText'⟩ := isSome_iff_exists.mp (isSome_text yes suited.1.2)
    obtain ⟨e, isText''⟩ := isSome_iff_exists.mp (isSome_text no suited.2)
    simp [text?, isText, isText', isText'']
  | piecewise operand _ _ _ =>
    simp only [isSuited, and_eq_true] at suited
    obtain ⟨t, isText⟩ := isSome_iff_exists.mp (isSome_text operand suited.1)
    simp [text?, isText]

theorem isSome_textAll {ranks : Ranks} (trees : List Expr) (suited : areSuited ranks trees = true) :
    (textAll? trees).isSome = true := by
  match trees with
  | [] => rfl
  | e :: rest =>
    simp only [areSuited, and_eq_true] at suited
    obtain ⟨t, isText⟩ := isSome_iff_exists.mp (isSome_text e suited.1)
    obtain ⟨texts, areTexts⟩ := isSome_iff_exists.mp (isSome_textAll rest suited.2)
    simp [textAll?, isText, areTexts]

theorem isSome_textItems {ranks : Ranks} (items : List GeneratorItem)
    (suited : itemsSuited ranks items = true) : (textItems? items).isSome = true := by
  match items with
  | [] => rfl
  | .filter cond :: rest =>
    simp only [itemsSuited, itemSuited, and_eq_true] at suited
    obtain ⟨t, isText⟩ := isSome_iff_exists.mp (isSome_text cond suited.1)
    obtain ⟨texts, areTexts⟩ := isSome_iff_exists.mp (isSome_textItems rest suited.2)
    simp [textItems?, textItem?, isText, areTexts]
  | .generator name (.data value) :: rest =>
    simp only [itemsSuited, and_eq_true] at suited
    obtain ⟨texts, areTexts⟩ := isSome_iff_exists.mp (isSome_textItems rest suited.2)
    simp [textItems?, textItem?, textDatum?, areTexts]
  | .generator name (.tree e) :: rest =>
    simp only [itemsSuited, itemSuited, datumSuited, and_eq_true] at suited
    obtain ⟨t, isText⟩ := isSome_iff_exists.mp (isSome_text e suited.1)
    obtain ⟨texts, areTexts⟩ := isSome_iff_exists.mp (isSome_textItems rest suited.2)
    simp [textItems?, textItem?, textDatum?, isText, areTexts]

end

/-! ## Open conditions and nested wildcards -/

/-- Whether a decision variable occurs in a tree. -/
def mentionsReference (e : Expr) : Bool := e.walk.any isReference

end Expr

/-- Whether an item is a filter that mentions a decision variable. -/
def GeneratorItem.isOpenFilter : GeneratorItem → Bool
  | generator _ _ => false
  | filter cond => cond.mentionsReference

namespace Expr

/-- Whether a node has a filter, or a container of a wildcard, that mentions a decision variable. -/
def isOpenCondition : Expr → Bool
  | sumOver _ gens => gens.any GeneratorItem.isOpenFilter
  | lookup container wildcard _ => container.mentionsReference
  | _ => false

def hasOpenCondition (e : Expr) : Bool := e.walk.any isOpenCondition

/-- Whether a node has a wildcard whose container needs more values than its chain has before it. -/
def isNestedWildcard : Expr → Bool
  | lookup container wildcard _ => container.wildcardSteps.length < container.needs
  | _ => false

def hasNestedWildcard (e : Expr) : Bool := e.walk.any isNestedWildcard

/-! ## Nodes as they are loaded -/

end Expr

/-- Data of a generator go only so deep. -/
def GeneratorItem.Layered : GeneratorItem → Prop
  | generator _ (.data value) => value.Layered
  | generator _ (.tree _) | filter _ => True

namespace Expr

/-- A node whose data go only so deep, whose segments have a slope and an intercept each, and that
reads none of the given names by a dotted step. -/
def IsFormed (names : List String) : Expr → Prop
  | literal value => value.Layered
  | lookup _ key dot => dot = true → ∃ name, key = symbol name ∧ name ∉ names
  | sumOver _ gens => ∀ item ∈ gens, item.Layered
  | piecewise _ breakpoints slopes offsets =>
    breakpoints.length = slopes.length + 1 ∧ breakpoints.length = offsets.length + 1
      ∧ ∀ v ∈ breakpoints ++ slopes ++ offsets, v.Layered
  | _ => True

/-- A tree of such nodes. -/
def AllFormed (names : List String) (e : Expr) : Prop := ∀ node ∈ e.walk, node.IsFormed names

variable {names : List String}

theorem allFormed_iff :
    e.AllFormed names ↔ e.IsFormed names ∧ ∀ c ∈ e.children, c.AllFormed names := by
  rw [AllFormed, walk_eq, forall_mem_cons]
  exact and_congr_right fun _ => forall_mem_flatMap

theorem AllFormed.child {c : Expr} (formed : e.AllFormed names) (mem : c ∈ e.children) :
    c.AllFormed names :=
  (allFormed_iff.mp formed).2 c mem

/-- The name that a dotted step reads. -/
def dotted? : Expr → Option String
  | lookup _ key true => key.symbol?
  | _ => none

/-- The names that the dotted steps of a tree read. -/
def dotted (e : Expr) : List String := e.walk.filterMap dotted?

theorem any_walk (p : Expr → Bool) (e : Expr) :
    e.walk.any p = (p e || e.children.any fun c => c.walk.any p) := by
  rw [walk_eq, any_cons, any_flatMap]

theorem any_walk_of_child {p : Expr → Bool} {c : Expr} (none : e.walk.any p = false)
    (mem : c ∈ e.children) : c.walk.any p = false := by
  rw [any_walk, Bool.or_eq_false_iff, any_eq_false] at none
  exact Bool.eq_false_iff.mpr (none.2 c mem)

theorem mentionsReference_of_isConstant (constant : e.isConstant = true) :
    e.mentionsReference = false := by
  rw [mentionsReference, any_eq_false]
  intro node mem isReference
  have closed := all_eq_true.mp constant node mem
  cases node with
  | ref => cases closed
  | _ => cases isReference

end Expr

/-! ## Statements as they are loaded -/

/-- A generator or filter whose data and trees are well formed. -/
def GeneratorItem.IsFormed (names : List String) (item : GeneratorItem) : Prop :=
  item.Layered ∧ ∀ e ∈ item.children, e.AllFormed names

/-- A bound whose tree is well formed. -/
def Datum.IsFormed (names : List String) : Datum → Prop
  | data _ => True
  | tree e => e.AllFormed names

/-- The tree that data are given by, if they are not given outright. -/
def Datum.trees : Datum → List Expr
  | data _ => []
  | tree e => [e]

namespace Statement

/-- The generators of a statement. -/
def generators : Statement → List GeneratorItem
  | variableFamily _ gens _ _ _ _ | constraintFamily _ _ _ gens _ => gens
  | objective _ _ => []

/-- The data of a statement that are trees where they are not plain values. -/
def data : Statement → List Datum
  | variableFamily _ _ _ lower upper _ => [lower, upper]
  | constraintFamily _ left right _ _ => [.tree left, .tree right]
  | objective expr _ => [.tree expr]

/-- The trees of a statement: what it states, its bounds, its filters and its domains. -/
def trees (stmt : Statement) : List Expr :=
  stmt.generators.flatMap GeneratorItem.children ++ stmt.data.flatMap Datum.trees

/-- The names that the dotted steps of a statement read. -/
def dotted (stmt : Statement) : List String := stmt.trees.flatMap Expr.dotted

/-- A statement whose parts are well formed. -/
structure IsFormed (names : List String) (stmt : Statement) : Prop where
  generators : ∀ item ∈ stmt.generators, item.IsFormed names
  data : ∀ datum ∈ stmt.data, datum.IsFormed names

end Statement

/-! ## Contexts -/

namespace Scope

theorem get?_put (scope : Scope) (name other : String) (value : Value) :
    (scope.put name value).get? other = if other = name then some value else scope.get? other := by
  induction scope with
  | nil =>
    by_cases found : other = name
    · simp [put, get?, found]
    · simp [put, get?, found, Ne.symm found]
  | cons entry _ ih =>
    rw [put]
    by_cases same : entry.1 = name
    · subst same
      by_cases found : other = entry.1
      · simp [get?, found]
      · simp [get?, found, Ne.symm found]
    · rw [if_neg (by simpa using same)]
      by_cases found : entry.1 = other
      · have : other ≠ name := found ▸ same
        simp [get?, found, this]
      · simpa [get?, find?_cons, found] using ih

end Scope

/-- A context whose names stand for values of the known depths. -/
structure Context.Fits (faults : Faults) (ranks : Ranks) (ctx : Context) : Prop where
  bound : ∀ name, (ctx.bindings.get? name).isSome = (ranks.bound name).isSome
  values : ∀ name n v, ranks.bound name = some n → ctx.bindings.get? name = some v →
    faults.Fits n v
  parameters : ∀ name v, ctx.parameters.table.get? name = some v →
    faults.Fits (ranks.parameters name) v
  host : ctx.parameters.host.attributes = faults.attributes

namespace Context.Fits

variable {faults : Faults} {ranks : Ranks} {ctx : Context}

theorem start {params : Parameters} (layered : ∀ entry ∈ params.table, entry.2.Layered)
    (host : params.host.attributes = faults.attributes) :
    ({ parameters := params } : Context).Fits faults (.ofParameters params) where
  bound name := rfl
  values name n v known found := by cases found
  parameters name v found := by
    obtain ⟨entry, first, rfl⟩ := Option.map_eq_some_iff.mp found
    have layered := layered entry (mem_of_find?_eq_some first)
    simp only [Ranks.ofParameters, found, Option.map_some, Option.getD_some]
    exact .of_within layered
  host := host

theorem bind (fits : ctx.Fits faults ranks) (name : String) {n : Nat} {value : Value}
    (isFit : faults.Fits n value) : (ctx.bind name value).Fits faults (ranks.bind name n) where
  bound other := by
    rw [Context.bind, Scope.get?_put, Ranks.bind]
    dsimp only
    split
    · rfl
    · exact fits.bound other
  values other k v known found := by
    rw [Context.bind, Scope.get?_put] at found
    rw [Ranks.bind] at known
    dsimp only at known
    split at known
    case isTrue same =>
      rw [if_pos same] at found
      cases known
      cases found
      exact isFit
    case isFalse different =>
      rw [if_neg different] at found
      exact fits.values other k v known found
  parameters := fits.parameters
  host := fits.host

theorem bound_value (fits : ctx.Fits faults ranks) {name : String} {v : Value}
    (found : ctx.bindings.get? name = some v) :
    ∃ n, ranks.bound name = some n ∧ faults.Fits n v := by
  have known := fits.bound name
  rw [found] at known
  obtain ⟨n, isKnown⟩ := isSome_iff_exists.mp known.symm
  exact ⟨n, isKnown, fits.values name n v isKnown found⟩

theorem resolve_ends (fits : ctx.Fits faults ranks) (name : String) :
    Ends (faults.Fits ((Expr.symbol name).rank ranks)) faults.Explain (ctx.resolve name) := by
  unfold Context.resolve
  cases found : ctx.bindings.get? name with
  | some =>
    obtain ⟨n, known, isFit⟩ := fits.bound_value found
    rw [Expr.rank, known]
    exact isFit.normalize
  | none =>
    have unknown := fits.bound name
    rw [found] at unknown
    have isNone : ranks.bound name = none :=
      Option.not_isSome_iff_eq_none.mp (by simp [← unknown])
    rw [Expr.rank, isNone]
    dsimp only
    split
    case h_1 v isParameter => exact (fits.parameters name v isParameter).normalize
    case h_2 => exact Faults.ends_raise rfl (.inl rfl)

end Context.Fits

end LinearProgram
