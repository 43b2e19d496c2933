import LinearProgram.Document
import LinearProgram.Proofs.Outcome

/-!
# Reading documents without fuel

The depth of a value is fuel enough to read it (`read_of_depth_le`), so the reader satisfies
equations in which no fuel is left (`Expr.ofJson_eq`).
-/

namespace LinearProgram

open List

variable {entries : Entries} {item value data : Value} {items : List Value}

namespace Value

theorem one_le_depth (v : Value) : 1 ≤ v.depth := by
  cases v <;> simp [depth]

theorem depth_le_depthItems (mem : item ∈ items) : item.depth ≤ depthItems items := by
  induction items with
  | nil => cases mem
  | cons _ _ ih =>
    rw [depthItems]
    rcases mem_cons.mp mem with rfl | mem
    · exact Nat.le_max_left _ _
    · exact Nat.le_trans (ih mem) (Nat.le_max_right _ _)

theorem depth_le_depthEntries {key : Value} {entries : List (Value × Value)}
    (mem : (key, value) ∈ entries) :
    key.depth ≤ depthEntries entries ∧ value.depth ≤ depthEntries entries := by
  induction entries with
  | nil => cases mem
  | cons first _ ih =>
    obtain ⟨firstKey, firstValue⟩ := first
    rw [depthEntries]
    rcases mem_cons.mp mem with same | mem
    · cases same
      omega
    · have := ih mem
      omega

/-- The items of a value lie no deeper than the value. -/
theorem depth_le_of_mem_items {v : Value} (have_ : v.items = .ok items) (mem : item ∈ items) :
    item.depth ≤ v.depth := by
  unfold Value.items at have_
  split at have_
  case h_3 s =>
    cases have_
    obtain ⟨c, -, rfl⟩ := mem_map.mp mem
    exact Nat.le_refl _
  case h_4 entries =>
    cases have_
    obtain ⟨⟨key, value⟩, inside, rfl⟩ := mem_map.mp mem
    have := depth_le_depthEntries inside
    simp only [depth]
    omega
  case h_5 start stop step =>
    unfold rangeList at have_
    dsimp only at have_
    split at have_
    · cases have_
    split at have_
    · cases have_
    cases have_
    obtain ⟨k, -, rfl⟩ := mem_map.mp mem
    exact Nat.le_refl _
  case h_8 => cases have_
  all_goals
    cases have_
    have := depth_le_depthItems mem
    simp only [depth]
    omega

end Value

theorem Entries.mem_of_named? {name : String} (named : Entries.named? entries name = some value) :
    ∃ key, (key, value) ∈ entries := by
  obtain ⟨⟨key, value'⟩, found, rfl⟩ := Option.map_eq_some_iff.mp named
  exact ⟨key, mem_of_find?_eq_some found⟩

/-- What stands in an object lies deeper than the object. -/
theorem Entries.depth_lt_of_named? {name : String}
    (named : Entries.named? entries name = some value) :
    value.depth < (Value.table entries).depth := by
  obtain ⟨key, mem⟩ := mem_of_named? named
  have := (Value.depth_le_depthEntries mem).2
  simp only [Value.depth]
  omega

namespace Document

theorem depth_lt_of_mem_itemsAt {key : String} (read : itemsAt entries key = .ok items)
    (mem : item ∈ items) : item.depth < (Value.table entries).depth := by
  unfold itemsAt at read
  split at read
  case h_1 value named =>
    have := Entries.depth_lt_of_named? named
    have := Value.depth_le_of_mem_items read mem
    omega
  case h_2 =>
    cases read
    cases mem

/-- The part of an object that its node holds, and its key. -/
def Node.part? : Node → Option (String × Value)
  | .literal value => some ("lit", value)
  | .reference name => some ("var", name)
  | .dotted steps => some ("dot", steps)
  | .bracketed steps => some ("get", steps)
  | .summation body => some ("body", body)
  | .operation op => some ("op", op)
  | .unknown => none

theorem named?_of_part? {key : String} {part : Value}
    (isPart : (node entries).part? = some (key, part)) : entries.named? key = some part := by
  unfold node at isPart
  split at isPart
  case h_5 =>
    unfold operatorNode at isPart
    split at isPart <;> cases isPart <;> assumption
  case h_6 => cases isPart
  all_goals
    cases isPart
    assumption

theorem operatorNode_eq_operation {op : Value} {body : Option Value}
    (other : ∀ b, op = .str "sum" → body = some b → False) :
    operatorNode op body = .operation op := by
  unfold operatorNode
  split
  · exact (other _ rfl rfl).elim
  · rfl

section Congruence

variable {expr expr' : Value → Except Error Expr}
  {binding binding' : Value → Except Error GeneratorItem}

theorem chain_congr {dot : Bool} {steps : List Value} (exprs : ∀ v ∈ steps, expr v = expr' v) :
    chain expr dot steps = chain expr' dot steps := by
  cases steps with
  | nil => rfl
  | cons =>
    rw [forall_mem_cons] at exprs
    rw [chain, chain, exprs.1]
    refine bind_congr fun start => ?_
    refine foldlM_congr_of_mem (fun inner key mem => ?_) start
    rw [exprs.2 key mem]

theorem readTree_congr (exprs : ∀ v : Value, v.depth < data.depth → expr v = expr' v)
    (bindings : ∀ v : Value, v.depth < data.depth → binding v = binding' v) :
    readTree expr binding data = readTree expr' binding' data := by
  cases data with
  | table entries =>
    have arrays : ∀ {α : Type} {read read' : Value → Except Error α},
        (∀ v : Value, v.depth < (Value.table entries).depth → read v = read' v) → ∀ {key items},
        itemsAt entries key = .ok items → items.mapM read = items.mapM read' :=
      fun same _ _ given =>
        mapM_congr_of_mem fun v mem => same v (depth_lt_of_mem_itemsAt given mem)
    have steps : ∀ {key part items} dot, (node entries).part? = some (key, part) →
        part.items = .ok items → chain expr dot items = chain expr' dot items := by
      intro key part items dot isPart given
      refine chain_congr fun v mem => exprs v ?_
      exact Nat.lt_of_le_of_lt (Value.depth_le_of_mem_items given mem)
        (Entries.depth_lt_of_named? (named?_of_part? isPart))
    show readNode expr binding entries = readNode expr' binding' entries
    unfold readNode
    split
    case h_1 => rfl
    case h_2 =>
      refine bind_congr_of_ok fun items given => ?_
      rw [arrays exprs given]
    case h_3 isDotted =>
      exact bind_congr_of_ok fun items given => steps true (by rw [isDotted]; rfl) given
    case h_4 isBracketed =>
      exact bind_congr_of_ok fun items given => steps false (by rw [isBracketed]; rfl) given
    case h_5 body isSummation =>
      refine bind_congr_of_ok fun items given => ?_
      rw [arrays exprs given]
      refine bind_congr_of_ok fun _ _ => bind_congr_of_ok fun items given => ?_
      rw [arrays bindings given, exprs body]
      exact Entries.depth_lt_of_named? (named?_of_part? (by rw [isSummation]; rfl))
    case h_6 =>
      refine bind_congr_of_ok fun items given => ?_
      rw [arrays exprs given]
    case h_7 => rfl
  | number x => cases x <;> rfl
  | _ => rfl

theorem readBinding_congr (exprs : ∀ v : Value, v.depth < data.depth → expr v = expr' v) :
    readBinding expr data = readBinding expr' data := by
  unfold readBinding
  split
  case h_1 entries =>
    cases given : Entries.named? entries "filter" with
    | none => rfl
    | some cond =>
      show (expr cond >>= _) = expr' cond >>= _
      rw [exprs cond (Entries.depth_lt_of_named? given)]
  case h_3 name domain _ =>
    rw [exprs domain]
    simp [Value.depth, Value.depthItems]
    omega
  all_goals rfl

end Congruence

/-- The depth of a value is fuel enough, for its parts as well. -/
theorem read_of_depth_le (depth : Nat) (data : Value) (isDeep : data.depth ≤ depth) (fuel : Nat)
    (enough : data.depth ≤ fuel) :
    readExpr fuel data = Expr.ofJson data
      ∧ readGenerator fuel data = GeneratorItem.ofJson data := by
  induction depth generalizing data fuel with
  | zero =>
    have := data.one_le_depth
    omega
  | succ _ ih =>
    obtain ⟨deep, isDepth⟩ : ∃ deep, data.depth = deep + 1 :=
      ⟨data.depth - 1, by have := data.one_le_depth; omega⟩
    obtain ⟨fuel, rfl⟩ : ∃ less, fuel = less + 1 := ⟨fuel - 1, by omega⟩
    -- both amounts of fuel leave enough for the parts, which the induction covers
    have parts : ∀ v : Value, v.depth < data.depth →
        readExpr fuel v = readExpr deep v ∧ readGenerator fuel v = readGenerator deep v := by
      intro v deeper
      have one := ih v (by omega) fuel (by omega)
      have other := ih v (by omega) deep (by omega)
      exact ⟨one.1.trans other.1.symm, one.2.trans other.2.symm⟩
    constructor
    · rw [Expr.ofJson, isDepth, readExpr, readExpr]
      exact readTree_congr (fun v deeper => (parts v deeper).1) fun v deeper => (parts v deeper).2
    · rw [GeneratorItem.ofJson, isDepth, readGenerator, readGenerator]
      exact readBinding_congr fun v deeper => (parts v deeper).1

end Document

open Document in
/-- Trees are read level by level. -/
theorem Expr.ofJson_eq (data : Value) :
    Expr.ofJson data = readTree Expr.ofJson GeneratorItem.ofJson data := by
  have := data.one_le_depth
  rw [Expr.ofJson, ← Nat.sub_add_cancel this, readExpr]
  refine readTree_congr (fun v deeper => ?_) fun v deeper => ?_
  · exact (read_of_depth_le v.depth v (Nat.le_refl _) _ (by omega)).1
  · exact (read_of_depth_le v.depth v (Nat.le_refl _) _ (by omega)).2

open Document in
theorem GeneratorItem.ofJson_eq (data : Value) :
    GeneratorItem.ofJson data = readBinding Expr.ofJson data := by
  have := data.one_le_depth
  rw [GeneratorItem.ofJson, ← Nat.sub_add_cancel this, readGenerator]
  refine readBinding_congr fun v deeper => ?_
  exact (read_of_depth_le v.depth v (Nat.le_refl _) _ (by omega)).1

end LinearProgram
