import LinearProgram.Proofs.DocumentReading
import LinearProgram.Proofs.JsonValues
import LinearProgram.Proofs.Trees

/-!
# The JSON form of trees

Every tree over JSON data has a JSON form (`Expr.toJson`), and reading it gives the tree back
(`written_trees_read_back`). Where a node could be written in several ways, the form takes one that
is read as this node only: a negation has its own word, arithmetic two arguments, and every literal
is marked.
-/

namespace LinearProgram

open List

variable {e : Expr} {args : List Expr} {entries : Entries}

/-! ## Forms -/

/-- The entries of an object with some fields. -/
def Entries.ofFields (fields : List (String × Value)) : Entries :=
  fields.map fun field => (.str field.1, field.2)

/-- An object with some fields. -/
def Value.object (fields : List (String × Value)) : Value := .table (Entries.ofFields fields)

/-- An operator over its arguments, with further fields. -/
def Value.operation (op : String) (args : List Value) (more : List (String × Value)) : Value :=
  .object (("op", .str op) :: ("args", .list args) :: more)

/-- The word for an aggregate in documents. -/
def Aggregate.keyword : Aggregate → String
  | max => "max"
  | min => "min"
  | and => "and"
  | or => "or"

mutual

/-- The JSON form of a tree. -/
def Expr.toJson : Expr → Value
  | .wildcard => .str "_"
  | .literal value => .object [("lit", value)]
  | .symbol name => .str name
  | .ref name indices => .object [("var", name), ("index", .list (toJsonAll indices))]
  | .lookup container key dot =>
    .object [(if dot then "dot" else "get", .list [container.toJson, key.toJson])]
  | .arith op left right => .operation op.sign [left.toJson, right.toJson] []
  | .negate operand => .operation "neg" [operand.toJson] []
  | .compare op left right => .operation op.sign [left.toJson, right.toJson] []
  | .range start stop => .operation "range" [start.toJson, stop.toJson] []
  | .sum args => .operation "sum" (toJsonAll args) []
  | .sumOver body gens =>
    .operation "sum" [] [("over", .list (toJsonItems gens)), ("body", body.toJson)]
  | .each pattern => .operation "each" [pattern.toJson] []
  | .abs operand => .operation "abs" [operand.toJson] []
  | .aggregate op args => .operation op.keyword (toJsonAll args) []
  | .ifThenElse cond yes no =>
    .operation "if" [cond.toJson, yes.toJson, no.toJson] []
  | .piecewise operand breakpoints slopes offsets =>
    .operation "piecewise" [operand.toJson]
      [("breakpoints", .list breakpoints), ("slopes", .list slopes),
        ("intercepts", .list offsets)]

def toJsonAll : List Expr → List Value
  | [] => []
  | e :: rest => e.toJson :: toJsonAll rest

def toJsonItems : List GeneratorItem → List Value
  | [] => []
  | item :: rest => item.toJson :: toJsonItems rest

/-- The JSON form of a generator or filter. -/
def GeneratorItem.toJson : GeneratorItem → Value
  | .generator name domain => .list [.str name, domain.toJson]
  | .filter cond => .object [("filter", cond.toJson)]

/-- The JSON form of a domain: the items of a sequence stand as they are. -/
def Datum.toJson : Datum → Value
  | .data (.tuple items) => .list items
  | .data value => value
  | .tree e => e.toJson

end

theorem toJsonAll_eq_map (args : List Expr) : toJsonAll args = args.map Expr.toJson := by
  induction args with
  | nil => rfl
  | cons _ _ ih => rw [toJsonAll, ih, map_cons]

theorem toJsonItems_eq_map (items : List GeneratorItem) :
    toJsonItems items = items.map GeneratorItem.toJson := by
  induction items with
  | nil => rfl
  | cons _ _ ih => rw [toJsonItems, ih, map_cons]

/-! ## Trees that can be written -/

/-- A domain that is a tree or a sequence of JSON values. -/
def GeneratorItem.IsWritable : GeneratorItem → Prop
  | .generator _ (.data value) => ∃ items, value = .tuple items ∧ ∀ item ∈ items, item.IsJson
  | .generator _ (.tree _) | .filter _ => True

namespace Expr

/-- A node that can be built, over JSON data. A bare name is not the sign of the wildcard, a family
has a text for its name, and an aggregate has something to join. -/
def IsWritable : Expr → Prop
  | literal value => value.IsJson
  | symbol name => name ≠ "_"
  | ref name _ => ∃ family, name = .str family
  | lookup container key dot => lookupStep container key dot = .ok (lookup container key dot)
  | sumOver _ gens => ∀ item ∈ gens, item.IsWritable
  | aggregate _ args => args ≠ []
  | piecewise operand breakpoints slopes offsets =>
    piecewiseOf operand breakpoints slopes offsets
        = .ok (piecewise operand breakpoints slopes offsets)
      ∧ ∀ v ∈ breakpoints ++ slopes ++ offsets, v.IsJson
  | wildcard | arith _ _ _ | negate _ | compare _ _ _ | range _ _ | sum _ | each _ | abs _
  | ifThenElse _ _ _ => True

/-- A tree of such nodes. -/
def AllWritable (e : Expr) : Prop := ∀ node ∈ e.walk, node.IsWritable

theorem allWritable_iff : e.AllWritable ↔ e.IsWritable ∧ ∀ c ∈ e.children, c.AllWritable := by
  rw [AllWritable, walk_eq, forall_mem_cons]
  exact and_congr_right fun _ => forall_mem_flatMap

end Expr

/-- A generator or filter over trees that can be written. -/
structure GeneratorItem.AllWritable (item : GeneratorItem) : Prop where
  domain : item.IsWritable
  trees : ∀ e ∈ item.children, e.AllWritable

/-! ## Reading a form back -/

/-- A JSON value that is read as given. -/
structure Writes {α : Type} (read : Value → Except Error α) (data : Value) (a : α) : Prop where
  isJson : data.IsJson
  reads : read data = .ok a

namespace Writes

variable {α : Type} {read : Value → Except Error α} {data : List Value} {l : List α}

theorem all_isJson (related : Forall₂ (Writes read) data l) : ∀ v ∈ data, v.IsJson := by
  intro v mem
  obtain ⟨a, -, writes⟩ := exists_of_forall₂ related mem
  exact writes.isJson

theorem mapM_eq (related : Forall₂ (Writes read) data l) : data.mapM read = .ok l := by
  induction related with
  | nil => rfl
  | cons here _ ih =>
    rw [mapM_cons, here.reads, ih]
    rfl

end Writes

theorem Value.IsJson.object {fields : List (String × Value)}
    (values : ∀ field ∈ fields, field.2.IsJson) : (Value.object fields).IsJson := by
  refine .table (fun entry mem => ?_) fun entry mem => ?_
  · obtain ⟨field, -, rfl⟩ := mem_map.mp mem
    exact ⟨field.1, rfl⟩
  · obtain ⟨field, known, rfl⟩ := mem_map.mp mem
    exact values field known

namespace Expr

open Document

theorem ofJson_object (fields : List (String × Value)) :
    ofJson (.object fields) = readNode ofJson GeneratorItem.ofJson (.ofFields fields) := by
  rw [ofJson_eq]
  rfl

/-- An operator is read off the forms of its arguments, if no other field tells a node. -/
theorem writes_operation {op : String} {data : List Value} {more : List (String × Value)}
    (related : Forall₂ (Writes ofJson) data args) (areJson : ∀ field ∈ more, field.2.IsJson)
    (plain : node (.ofFields (("op", .str op) :: ("args", .list data) :: more))
      = .operation (.str op))
    (built : operator (.str op) (.ofFields (("op", .str op) :: ("args", .list data) :: more)) args
      = .ok e) : Writes ofJson (.operation op data more) e := by
  refine ⟨.object ?_, ?_⟩
  · simp only [forall_mem_cons]
    exact ⟨.str op, .list (Writes.all_isJson related), areJson⟩
  · rw [Value.operation, ofJson_object, readNode, plain]
    show (data.mapM ofJson >>= _) = _
    rw [Writes.mapM_eq related]
    exact built

/-- The case of an operator with no further fields. -/
theorem writes_plain_operation {op : String} {data : List Value}
    (related : Forall₂ (Writes ofJson) data args)
    (built : ∀ entries, operator (.str op) entries args = .ok e) :
    Writes ofJson (.operation op data []) e :=
  writes_operation related (by simp) (operatorNode_eq_operation nofun) (built _)

theorem writes_lookup {container key : Expr} {c k : Value} {dot : Bool}
    (first : Writes ofJson c container) (second : Writes ofJson k key)
    (built : lookupStep container key dot = .ok (lookup container key dot)) :
    Writes ofJson (.object [(if dot then "dot" else "get", .list [c, k])])
      (lookup container key dot) := by
  refine ⟨.object (by simp [first.isJson, second.isJson]), ?_⟩
  have steps : chain ofJson dot [c, k] = .ok (lookup container key dot) := by
    simp only [chain, first.reads, foldlM_cons, foldlM_nil, second.reads]
    show (lookupStep container key dot >>= pure) = _
    rw [built]
    rfl
  rw [ofJson_object]
  cases dot <;> exact steps

end Expr

open Document in
theorem GeneratorItem.writes_toJson {item : GeneratorItem} (writable : item.IsWritable)
    (trees : ∀ e ∈ item.children, Writes Expr.ofJson e.toJson e) :
    Writes GeneratorItem.ofJson item.toJson item := by
  cases item with
  | filter cond =>
    have writes := trees cond mem_cons_self
    refine ⟨.object (by simpa using writes.isJson), ?_⟩
    rw [ofJson_eq]
    show (do pure (GeneratorItem.filter (← Expr.ofJson cond.toJson))) = _
    rw [writes.reads]
    rfl
  | generator name domain =>
    rw [toJson]
    cases domain with
    | data =>
      obtain ⟨items, rfl, areJson⟩ := writable
      refine ⟨by simpa [Datum.toJson] using areJson, ?_⟩
      rw [ofJson_eq]
      rfl
    | tree e =>
      have writes := trees e mem_cons_self
      refine ⟨by simpa [Datum.toJson] using writes.isJson, ?_⟩
      -- a list would be taken for data, but no tree is written as one
      have read : readBinding Expr.ofJson (.list [.str name, e.toJson])
          = (do pure (.ranging name (.tree (← Expr.ofJson e.toJson)))) := by
        cases isForm : e.toJson with
        | list => cases e <;> simp [Expr.toJson, Value.object, Value.operation] at isForm
        | _ => rfl
      rw [ofJson_eq, Datum.toJson, read, writes.reads]
      rfl

namespace Expr

open Document

theorem writes_toJson (e : Expr) (writable : e.AllWritable) : Writes ofJson e.toJson e := by
  induction e using induction_on_children with
  | step e ih =>
    obtain ⟨root, below⟩ := allWritable_iff.mp writable
    have parts : ∀ c ∈ e.children, Writes ofJson c.toJson c := fun c mem => ih c mem (below c mem)
    have all : ∀ args : List Expr, (∀ c ∈ args, Writes ofJson c.toJson c) →
        Forall₂ (Writes ofJson) (args.map toJson) args := fun args each => by
      rw [forall₂_map_left_iff, forall₂_same]
      exact each
    cases e with
    | wildcard => exact ⟨.str _, rfl⟩
    | symbol name =>
      refine ⟨.str _, ?_⟩
      rw [ofJson_eq]
      show Except.ok (if name == "_" then wildcard else symbol name) = _
      have named : name ≠ "_" := root
      rw [if_neg (by simpa using named)]
    | literal =>
      refine ⟨.object (forall_mem_singleton.mpr root), ?_⟩
      rw [toJson, ofJson_object]
      rfl
    | ref _ indices =>
      obtain ⟨family, rfl⟩ := root
      have related := all indices parts
      rw [toJson, toJsonAll_eq_map]
      refine ⟨.object (by simpa using Writes.all_isJson related), ?_⟩
      rw [ofJson_object]
      show (do pure (ref (.str family) (← (indices.map toJson).mapM ofJson))) = _
      rw [Writes.mapM_eq related]
      rfl
    | lookup container key =>
      exact writes_lookup (parts container mem_cons_self) (parts key (by simp [children])) root
    | negate operand | each operand | abs operand =>
      exact writes_plain_operation (all [operand] parts) fun _ => rfl
    | arith op left right | compare op left right =>
      refine writes_plain_operation (all [left, right] parts) fun _ => ?_
      cases op <;> rfl
    | range start stop => exact writes_plain_operation (all [start, stop] parts) fun _ => rfl
    | ifThenElse cond yes no =>
      exact writes_plain_operation (all [cond, yes, no] parts) fun _ => rfl
    | sum args =>
      rw [toJson, toJsonAll_eq_map]
      exact writes_plain_operation (all args parts) fun _ => rfl
    | aggregate op =>
      obtain ⟨first, rest, rfl⟩ := exists_cons_of_ne_nil root
      rw [toJson, toJsonAll_eq_map]
      refine writes_plain_operation (all _ parts) fun _ => ?_
      cases op <;> rfl
    | piecewise operand breakpoints slopes offsets =>
      obtain ⟨built, areJson⟩ := root
      simp only [forall_mem_append] at areJson
      refine writes_operation (all [operand] parts) ?_ rfl ?_
      · simpa [and_assoc] using areJson
      · conv =>
          lhs
          whnf
        rw [built]
    | sumOver body gens =>
      have items :
          Forall₂ (Writes GeneratorItem.ofJson) (toJsonItems gens) gens := by
        rw [toJsonItems_eq_map, forall₂_map_left_iff, forall₂_same]
        exact fun item mem => item.writes_toJson (root item mem) fun t inside =>
          parts t (mem_cons_of_mem _ (mem_flatMap.mpr ⟨item, mem, inside⟩))
      have writes := parts body mem_cons_self
      refine ⟨.object ?_, ?_⟩
      · simpa [writes.isJson] using Writes.all_isJson items
      · rw [toJson, Value.operation, ofJson_object]
        show (do
          let gens ← (toJsonItems gens).mapM GeneratorItem.ofJson
          pure (sumOver (← ofJson body.toJson) gens)) = _
        rw [Writes.mapM_eq items, writes.reads]
        rfl

end Expr

/-- **Every tree has a JSON form.** Each tree that can be built, whose literals, piecewise data and
literal domains are JSON values, whose bare names are not the sign of the wildcard, whose families
are named by text, whose domains are trees or sequences, and whose aggregates have arguments, is
what its JSON form is read as. So is each generator and filter over such trees. -/
theorem written_trees_read_back :
    (∀ e : Expr, e.AllWritable → e.toJson.IsJson ∧ Expr.ofJson e.toJson = .ok e)
      ∧ ∀ item : GeneratorItem, item.AllWritable →
        item.toJson.IsJson ∧ GeneratorItem.ofJson item.toJson = .ok item := by
  refine ⟨fun e writable => ?_, fun item writable => ?_⟩
  · obtain ⟨isJson, reads⟩ := e.writes_toJson writable
    exact ⟨isJson, reads⟩
  · obtain ⟨isJson, reads⟩ := item.writes_toJson writable.domain fun e mem =>
      e.writes_toJson (writable.trees e mem)
    exact ⟨isJson, reads⟩

def apart : GeneratorItem := .filter (.compare .ne (.symbol "i") (.symbol "j"))

/-- A sum with lookups of both kinds, a sign and a difference, a wildcard, and data in two
places. -/
def tolls : Expr :=
  .sumOver
    (.arith .sub
      (.negate (.lookup (.lookup (.symbol "tolls") (.symbol "base") true) (.symbol "i") false))
      (.piecewise (.ref (.str "flow") [.wildcard, .symbol "j"])
        [.int 0, .int 2, .int 5] [.int 1, .int 3] [.int 0, .int (-4)]))
    [.generator "i" (.data (.tuple [.int 1, .str "a"])),
      .generator "j" (.tree (.range (.literal (.int 1)) (.symbol "i"))), apart]

theorem tolls_writable : tolls.AllWritable := by
  have named : ∀ name ∈ ["tolls", "base", "i", "j"], (Expr.symbol name).IsWritable := by
    intro name mem same
    rw [same] at mem
    exact absurd mem (by decide)
  simp only [forall_mem_cons] at named
  obtain ⟨isTolls, isBase, isI, isJ, -⟩ := named
  have items : ∀ item ∈ [Value.int 1, .str "a"], item.IsJson := by simp
  have data : ∀ v ∈ [Value.int 0, .int 2, .int 5] ++ [.int 1, .int 3] ++ [.int 0, .int (-4)],
      v.IsJson := by simp
  simp only [Expr.AllWritable, tolls, apart, Expr.walk_eq, Expr.children, GeneratorItem.children,
    flatMap_cons, flatMap_nil, cons_append, nil_append, append_nil, forall_mem_cons]
  refine ⟨?_, trivial, trivial, rfl, rfl, isTolls, isBase, isI, ⟨rfl, data⟩, ⟨"flow", rfl⟩, trivial,
    isJ, trivial, .number _, isI, trivial, isI, isJ, forall_mem_nil _⟩
  simp only [Expr.IsWritable, forall_mem_cons]
  exact ⟨⟨_, rfl, items⟩, trivial, trivial, forall_mem_nil _⟩

theorem tolls_read_back :
    apart.toJson = .object [("filter", .operation "!=" [.str "i", .str "j"] [])]
      ∧ (tolls.toJson.IsJson ∧ Expr.ofJson tolls.toJson = .ok tolls)
      ∧ apart.toJson.IsJson ∧ GeneratorItem.ofJson apart.toJson = .ok apart := by
  refine ⟨rfl, written_trees_read_back.1 tolls tolls_writable, written_trees_read_back.2 apart ?_⟩
  refine ⟨trivial, fun e mem => ?_⟩
  -- the filter is one of the subtrees of the sum
  exact (Expr.allWritable_iff.mp tolls_writable).2 e
    (mem_cons_of_mem _ (mem_flatMap.mpr ⟨apart, by simp, mem⟩))

end LinearProgram
