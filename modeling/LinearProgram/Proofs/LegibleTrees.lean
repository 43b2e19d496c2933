import LinearProgram.Proofs.Trees
import LinearProgram.Proofs.WrittenWords

/-!
# Legible trees

Written forms tell neither references from bare names and lookups, nor comparisons within each other
apart. A tree is legible if its names say which they are, by a list of families, comparisons and
ranges are no operands of one another, and its values are whole numbers and texts
(`Expr.isLegible`). Legible trees are equal only if they are the same (`Expr.equal_iff`).
-/

namespace LinearProgram

open List
open Bool (and_eq_true)

namespace Written

theorem same_iff {v v' : Value} (word : isWord v = true) (word' : isWord v' = true) :
    v.same v' = true ↔ v = v' := by
  cases v with
  | number x =>
    cases x with
    | int n =>
      cases v' with
      | number x' =>
        cases x' with
        | int n' =>
          have decided := Value.int_same_int n n'
          simp only [Value.int] at decided
          simp [decided]
        | _ => cases word'
      | str => simp [Value.same, Value.bothNaN, Value.equal]
      | _ => cases word'
    | _ => cases word
  | str =>
    cases v' with
    | number | str => simp [Value.same, Value.bothNaN, Value.equal]
    | _ => cases word'
  | _ => cases word

theorem equalItems_iff {values values' : List Value} (words : ∀ v ∈ values, isWord v = true)
    (words' : ∀ v ∈ values', isWord v = true) :
    Value.equalItems values values' = true ↔ values = values' := by
  induction values generalizing values' with
  | nil => cases values' <;> simp [Value.equalItems]
  | cons _ _ ih =>
    cases values' with
    | nil => simp [Value.equalItems]
    | cons =>
      rw [forall_mem_cons] at words words'
      rw [Value.equalItems_cons, and_eq_true, same_iff words.1 words'.1,
        ih words.2 words'.2, List.cons.injEq]

end Written

namespace Expr

/-- Whether a tree is written around an operator, with no brackets. -/
def isLoose : Expr → Bool
  | compare _ _ _ | range _ _ => true
  | _ => false

/-- Whether a tree is a number. -/
def isNumeral : Expr → Bool
  | literal (.number _) => true
  | _ => false

/-- Whether a step written behind a tree is a step into the whole tree. A bracket behind a family's
name holds indices. -/
def isHandle : Expr → Bool
  | literal (.number _) | negate _ | compare _ _ _ | range _ _ | ref _ [] => false
  | _ => true

/-- Whether a tree is a name that may stand behind a dot. -/
def isDotKey : Expr → Bool
  | symbol name => Written.isName name
  | _ => false

/-- A name that is no wildcard. -/
def isProperName (name : String) : Bool := Written.isName name && name != "_"

/-- Whether a value names one of the families. -/
def isFamily (families : List String) : Value → Bool
  | .str name => isProperName name && families.contains name
  | _ => false

mutual

/-- Whether the written form of a tree tells the tree, to a reader who knows which names are
variable families. -/
def isLegible (families : List String) : Expr → Bool
  | wildcard => true
  | literal value => Written.isWord value
  | symbol name => isProperName name && !families.contains name
  | ref name indices => isFamily families name && areLegible families indices
  | lookup container key dot =>
    container.isHandle && isLegible families container
      && (if dot then key.isDotKey else isLegible families key)
  | arith _ left right => isLegible families left && isLegible families right
  | negate operand => !operand.isLoose && !operand.isNumeral && isLegible families operand
  | compare _ left right | range left right =>
    (!left.isLoose && isLegible families left) && (!right.isLoose && isLegible families right)
  | sum args | aggregate _ args => areLegible families args
  | sumOver body gens => isLegible families body && areLegibleItems families gens
  | each operand | abs operand => isLegible families operand
  | ifThenElse cond yes no =>
    isLegible families cond && isLegible families yes && isLegible families no
  | piecewise operand breakpoints slopes offsets =>
    isLegible families operand
      && (breakpoints.all Written.isWord && slopes.all Written.isWord
        && offsets.all Written.isWord)

def areLegible (families : List String) : List Expr → Bool
  | [] => true
  | e :: rest => isLegible families e && areLegible families rest

def areLegibleItems (families : List String) : List GeneratorItem → Bool
  | [] => true
  | item :: rest => isLegibleItem families item && areLegibleItems families rest

def isLegibleItem (families : List String) : GeneratorItem → Bool
  | .generator _ domain => isLegibleDatum families domain
  | .filter cond => isLegible families cond

def isLegibleDatum (families : List String) : Datum → Bool
  | .data value =>
    match value with
    | .tuple items => items.all Written.isWord
    | _ => false
  | .tree e => isLegible families e

end

variable {families : List String}

theorem areLegible_iff {trees : List Expr} :
    areLegible families trees = true ↔ ∀ e ∈ trees, e.isLegible families = true := by
  induction trees with
  | nil => simp [areLegible]
  | cons _ _ ih => simp [areLegible, ih]

theorem areLegibleItems_iff {items : List GeneratorItem} :
    areLegibleItems families items = true
      ↔ ∀ item ∈ items, isLegibleItem families item = true := by
  induction items with
  | nil => simp [areLegibleItems]
  | cons _ _ ih => simp [areLegibleItems, ih]

/-! ## Equality of trees -/

mutual

/-- Equality of trees: the same nodes, with equal data. -/
def equal : Expr → Expr → Bool
  | wildcard, wildcard => true
  | literal v, literal v' => v.same v'
  | symbol name, symbol name' => name == name'
  | ref name indices, ref name' indices' => name.same name' && equalAll indices indices'
  | lookup container key dot, lookup container' key' dot' =>
    equal container container' && equal key key' && dot == dot'
  | arith op left right, arith op' left' right' =>
    op == op' && equal left left' && equal right right'
  | negate operand, negate operand' => equal operand operand'
  | compare op left right, compare op' left' right' =>
    op == op' && equal left left' && equal right right'
  | range start stop, range start' stop' => equal start start' && equal stop stop'
  | sum args, sum args' => equalAll args args'
  | sumOver body gens, sumOver body' gens' =>
    equal body body' && equalItems gens gens'
  | each pattern, each pattern' => equal pattern pattern'
  | abs operand, abs operand' => equal operand operand'
  | aggregate op args, aggregate op' args' => op == op' && equalAll args args'
  | ifThenElse cond yes no, ifThenElse cond' yes' no' =>
    equal cond cond' && equal yes yes' && equal no no'
  | piecewise operand breakpoints slopes offsets,
      piecewise operand' breakpoints' slopes' offsets' =>
      equal operand operand' && (Value.equalItems breakpoints breakpoints'
        && Value.equalItems slopes slopes' && Value.equalItems offsets offsets')
  | _, _ => false
termination_by structural e => e

def equalAll : List Expr → List Expr → Bool
  | [], [] => true
  | e :: rest, e' :: rest' => equal e e' && equalAll rest rest'
  | _, _ => false
termination_by structural trees => trees

def equalItems : List GeneratorItem → List GeneratorItem → Bool
  | [], [] => true
  | item :: rest, item' :: rest' => equalItem item item' && equalItems rest rest'
  | _, _ => false
termination_by structural items => items

def equalItem : GeneratorItem → GeneratorItem → Bool
  | .generator name domain, .generator name' domain' => name == name' && equalDatum domain domain'
  | .filter cond, .filter cond' => equal cond cond'
  | _, _ => false
termination_by structural item => item

def equalDatum : Datum → Datum → Bool
  | .data v, .data v' => v.same v'
  | .tree e, .tree e' => equal e e'
  | _, _ => false
termination_by structural datum => datum

end

/-- A tree that is equal to no other legible tree. -/
def ToldApart (families : List String) (e : Expr) : Prop :=
  e.isLegible families = true → ∀ e' : Expr, e'.isLegible families = true →
    (e.equal e' = true ↔ e = e')

theorem equalAll_iff {trees trees' : List Expr} (legible : areLegible families trees = true)
    (legible' : areLegible families trees' = true) (told : ∀ e ∈ trees, e.ToldApart families) :
    equalAll trees trees' = true ↔ trees = trees' := by
  induction trees generalizing trees' with
  | nil => cases trees' <;> simp [equalAll]
  | cons _ _ ih =>
    cases trees' with
    | nil => simp [equalAll]
    | cons e' =>
      simp only [areLegible, and_eq_true] at legible legible'
      rw [forall_mem_cons] at told
      rw [equalAll, and_eq_true, told.1 legible.1 e' legible'.1,
        ih legible.2 legible'.2 told.2, List.cons.injEq]

theorem equalDatum_iff {domain domain' : Datum} (legible : isLegibleDatum families domain = true)
    (legible' : isLegibleDatum families domain' = true)
    (told : ∀ e, domain = .tree e → e.ToldApart families) :
    equalDatum domain domain' = true ↔ domain = domain' := by
  cases domain with
  | tree e =>
    cases domain' with
    | tree e' => rw [equalDatum, told e rfl legible e' legible', Datum.tree.injEq]
    | data => simp [equalDatum]
  | data v =>
    cases domain' with
    | tree => simp [equalDatum]
    | data v' =>
      cases v with
      | tuple =>
        cases v' with
        | tuple =>
          rw [isLegibleDatum, all_eq_true] at legible legible'
          simp [equalDatum, Value.same, Value.bothNaN, Value.equal,
            Written.equalItems_iff legible legible']
        | _ => cases legible'
      | _ => cases legible

theorem equalItem_iff {item item' : GeneratorItem} (legible : isLegibleItem families item = true)
    (legible' : isLegibleItem families item' = true)
    (told : ∀ e ∈ item.children, e.ToldApart families) :
    equalItem item item' = true ↔ item = item' := by
  cases item with
  | generator _ domain =>
    cases item' with
    | generator =>
      have tree : ∀ e, domain = .tree e → e.ToldApart families := by
        rintro e rfl
        exact told e mem_cons_self
      rw [equalItem, and_eq_true, beq_iff_eq, equalDatum_iff legible legible' tree,
        GeneratorItem.generator.injEq]
    | filter => simp [equalItem]
  | filter cond =>
    cases item' with
    | generator => simp [equalItem]
    | filter cond' =>
      rw [equalItem, told cond mem_cons_self legible cond' legible',
        GeneratorItem.filter.injEq]

theorem equalItems_iff {items items' : List GeneratorItem}
    (legible : areLegibleItems families items = true)
    (legible' : areLegibleItems families items' = true)
    (told : ∀ e ∈ items.flatMap GeneratorItem.children, e.ToldApart families) :
    equalItems items items' = true ↔ items = items' := by
  induction items generalizing items' with
  | nil => cases items' <;> simp [equalItems]
  | cons _ _ ih =>
    cases items' with
    | nil => simp [equalItems]
    | cons =>
      simp only [areLegibleItems, and_eq_true] at legible legible'
      rw [flatMap_cons, forall_mem_append] at told
      rw [equalItems, and_eq_true, equalItem_iff legible.1 legible'.1 told.1,
        ih legible.2 legible'.2 told.2, List.cons.injEq]

theorem family_same_iff {name name' : Value} (family : isFamily families name = true)
    (family' : isFamily families name' = true) : name.same name' = true ↔ name = name' := by
  cases name with
  | str =>
    cases name' with
    | str => exact Written.same_iff rfl rfl
    | _ => cases family'
  | _ => cases family

/-- A step of a lookup, whose key may be a name behind a dot. -/
theorem key_equal_iff {key key' : Expr} {dot : Bool}
    (legible : (if dot then key.isDotKey else key.isLegible families) = true)
    (legible' : (if dot then key'.isDotKey else key'.isLegible families) = true)
    (told : key.ToldApart families) : key.equal key' = true ↔ key = key' := by
  cases dot with
  | false => exact told legible key' legible'
  | true =>
    cases key with
    | symbol => cases key' <;> simp [equal]
    | _ => cases legible

/-- Legible trees are equal only if they are the same. -/
theorem toldApart (e : Expr) : e.ToldApart families := by
  induction e using induction_on_children with
  | step e ih =>
  intro legible e' legible'
  -- the last case is that of two different nodes
  fun_cases equal e e' with
  | case1 | case3 => simp
  | case2 => rw [literal.injEq, Written.same_iff legible legible']
  | case4 =>
    simp only [isLegible, and_eq_true] at legible legible'
    rw [and_eq_true, ref.injEq, family_same_iff legible.1 legible'.1,
      equalAll_iff legible.2 legible'.2 ih]
  | case5 _ _ _ container' =>
    simp only [children, forall_mem_cons] at ih
    simp only [isLegible, and_eq_true] at legible legible'
    rw [and_eq_true, and_eq_true, beq_iff_eq, lookup.injEq,
      ih.1 legible.1.2 container' legible'.1.2, and_assoc]
    refine and_congr_right fun _ => and_congr_left fun sameDot => ?_
    subst sameDot
    exact key_equal_iff legible.2 legible'.2 ih.2.1
  | case6 _ _ _ _ left' right' =>
    simp only [children, forall_mem_cons] at ih
    simp only [isLegible, and_eq_true] at legible legible'
    rw [and_eq_true, and_eq_true, beq_iff_eq, arith.injEq,
      ih.1 legible.1 left' legible'.1, ih.2.1 legible.2 right' legible'.2, and_assoc]
  | case7 operand operand' =>
    simp only [isLegible, and_eq_true] at legible legible'
    rw [negate.injEq, ih operand mem_cons_self legible.2 operand' legible'.2]
  | case8 _ _ _ _ left' right' =>
    simp only [children, forall_mem_cons] at ih
    simp only [isLegible, and_eq_true] at legible legible'
    rw [and_eq_true, and_eq_true, beq_iff_eq, compare.injEq,
      ih.1 legible.1.2 left' legible'.1.2, ih.2.1 legible.2.2 right' legible'.2.2, and_assoc]
  | case9 _ _ start' stop' =>
    simp only [children, forall_mem_cons] at ih
    simp only [isLegible, and_eq_true] at legible legible'
    rw [and_eq_true, range.injEq, ih.1 legible.1.2 start' legible'.1.2,
      ih.2.1 legible.2.2 stop' legible'.2.2]
  | case10 => rw [sum.injEq, equalAll_iff legible legible' ih]
  | case11 _ _ body' =>
    simp only [children, forall_mem_cons] at ih
    simp only [isLegible, and_eq_true] at legible legible'
    rw [and_eq_true, sumOver.injEq, ih.1 legible.1 body' legible'.1,
      equalItems_iff legible.2 legible'.2 ih.2]
  | case12 tree tree' | case13 tree tree' =>
    simp [ih tree mem_cons_self legible tree' legible']
  | case14 =>
    rw [and_eq_true, beq_iff_eq, aggregate.injEq, equalAll_iff legible legible' ih]
  | case15 _ _ _ cond' yes' no' =>
    simp only [children, forall_mem_cons] at ih
    simp only [isLegible, and_eq_true] at legible legible'
    rw [and_eq_true, and_eq_true, ifThenElse.injEq,
      ih.1 legible.1.1 cond' legible'.1.1, ih.2.1 legible.1.2 yes' legible'.1.2,
      ih.2.2.1 legible.2 no' legible'.2, and_assoc]
  | case16 operand _ _ _ operand' =>
    simp only [isLegible, and_eq_true, all_eq_true] at legible legible'
    obtain ⟨isLegible, ⟨words, slopeWords⟩, interceptWords⟩ := legible
    obtain ⟨isLegible', ⟨words', slopeWords'⟩, interceptWords'⟩ := legible'
    rw [and_eq_true, and_eq_true, and_eq_true, piecewise.injEq,
      ih operand mem_cons_self isLegible operand' isLegible',
      Written.equalItems_iff words words', Written.equalItems_iff slopeWords slopeWords',
      Written.equalItems_iff interceptWords interceptWords', and_assoc]
  | case17 =>
    refine iff_of_false Bool.false_ne_true ?_
    rintro rfl
    cases e <;> solve_by_elim

/-- Legible trees are equal only if they are the same. -/
theorem equal_iff {e e' : Expr} (legible : e.isLegible families = true)
    (legible' : e'.isLegible families = true) : e.equal e' = true ↔ e = e' :=
  e.toldApart legible e' legible'

end Expr

end LinearProgram
