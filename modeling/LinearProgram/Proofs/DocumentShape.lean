import LinearProgram.Proofs.DocumentReading
import LinearProgram.Proofs.Suited

/-!
# The shape of documents

Reading a document refuses what is ill-formed, but does not look at the shape of all parts: a value
is asked for its items, an operator may be no key, breakpoints may have no order. Where such a part
has the wrong shape (`Document.Misshapen`), and only there, the reader breaks down
(`Document.loading_outcome`). What it gives is well formed (`Statement.formed_of_ofJson`). The
induction is on the depth of the JSON value.
-/

namespace LinearProgram

open List

variable {entries : Entries} {v : Value} {args : List Expr}

/-- Whether ill-formed input is what failed: it was refused, or lacks the form of its value. -/
def Error.isInvalid : Error → Bool
  | refused cause => cause.kind = .invalid
  | broken (.malformed _) => true
  | broken _ => false

/-- A value that has no items, though it stands in the place of an array. -/
def Value.Itemless (v : Value) : Prop := ∀ items, v.items ≠ .ok items

namespace Document

/-- The keys under which an object of a node holds arrays. -/
def Node.arrays : Node → List String
  | .literal _ | .unknown => []
  | .reference _ => ["index"]
  | .dotted _ => ["dot"]
  | .bracketed _ => ["get"]
  | .summation _ => ["args", "over"]
  | .operation (.str "piecewise") => ["args", "breakpoints", "slopes", "intercepts"]
  | .operation _ => ["args"]

/-- The keys under which a statement holds trees, which depend on its kind. -/
def statementTrees (entries : Entries) : List String :=
  match entries.named? "variables", entries.named? "constraint", entries.named? "objective" with
  | some _, _, _ => ["min_bound", "max_bound"]
  | none, some _, _ => ["constraint"]
  | none, none, some _ => ["objective"]
  | none, none, none => []

/-- The key under which an object of a node holds trees. -/
def Node.trees? : Node → Option String
  | .literal _ | .unknown => none
  | .reference _ => some "index"
  | .dotted _ => some "dot"
  | .bracketed _ => some "get"
  | .summation _ | .operation _ => some "args"

end Document

open Document

mutual

/-- A part of the JSON form of a tree does not have the shape it is used with. -/
inductive Expr.Misshapen : Value → Prop where
  | array {entries : Entries} {key : String} {v : Value} (isArray : key ∈ (node entries).arrays)
      (given : entries.named? key = some v) (itemless : v.Itemless) :
      Expr.Misshapen (.table entries)
  | tree {entries : Entries} {key : String} {v item : Value} {items : List Value}
      (areTrees : (node entries).trees? = some key) (given : entries.named? key = some v)
      (hasItems : v.items = .ok items) (mem : item ∈ items) (misshapen : Expr.Misshapen item) :
      Expr.Misshapen (.table entries)
  | binding {entries : Entries} {body v item : Value} {items : List Value}
      (isSum : node entries = .summation body) (given : entries.named? "over" = some v)
      (hasItems : v.items = .ok items) (mem : item ∈ items)
      (misshapen : GeneratorItem.Misshapen item) : Expr.Misshapen (.table entries)
  | body {entries : Entries} {body : Value} (isSum : node entries = .summation body)
      (misshapen : Expr.Misshapen body) : Expr.Misshapen (.table entries)
  /-- Only what can be a key can be looked up among the operators. -/
  | operator {entries : Entries} {op : Value} (isOperation : node entries = .operation op)
      (noKey : op.isKey = false) : Expr.Misshapen (.table entries)
  /-- Two neighbours among the breakpoints have no order. -/
  | breakpoints {entries : Entries} {v low high : Value} {points : List Value}
      (isPiecewise : node entries = .operation (.str "piecewise"))
      (given : entries.named? "breakpoints" = some v) (hasItems : v.items = .ok points)
      (neighbours : [low, high] <:+: points)
      (unordered : Value.ordered? .greaterEq low high = none) : Expr.Misshapen (.table entries)
  /-- A dotted key, which must be a bare name, is a tree that has no written form. -/
  | dotKey {entries : Entries} {steps root key : Value} {keys : List Value} {e : Expr}
      (isDotted : node entries = .dotted steps) (hasItems : steps.items = .ok (root :: keys))
      (mem : key ∈ keys) (read : Expr.ofJson key = .ok e) (wordless : e.text? = none) :
      Expr.Misshapen (.table entries)

/-- The tree of a generator or filter is misshapen. -/
inductive GeneratorItem.Misshapen : Value → Prop where
  | filter {entries : Entries} {cond : Value} (given : entries.named? "filter" = some cond)
      (misshapen : Expr.Misshapen cond) : GeneratorItem.Misshapen (.table entries)
  | domain {name : String} {domain : Value} (misshapen : Expr.Misshapen domain) :
      GeneratorItem.Misshapen (.list [.str name, domain])

end

/-- A part of the JSON form of a statement does not have the shape it is used with. -/
inductive Statement.Misshapen : Value → Prop where
  | array {entries : Entries} {v : Value} (given : entries.named? "over" = some v)
      (itemless : v.Itemless) : Statement.Misshapen (.table entries)
  | binding {entries : Entries} {v item : Value} {items : List Value}
      (given : entries.named? "over" = some v) (hasItems : v.items = .ok items)
      (mem : item ∈ items) (misshapen : GeneratorItem.Misshapen item) :
      Statement.Misshapen (.table entries)
  | tree {entries : Entries} {key : String} {v : Value} (isTree : key ∈ statementTrees entries)
      (given : entries.named? key = some v) (misshapen : Expr.Misshapen v) :
      Statement.Misshapen (.table entries)

/-- The statements of a document are no array, or one of them is misshapen. -/
inductive Document.Misshapen : Value → Prop where
  | array {entries : Entries} {v : Value} (given : entries.named? "statements" = some v)
      (itemless : v.Itemless) : Document.Misshapen (.table entries)
  | statement {entries : Entries} {v item : Value} {items : List Value}
      (given : entries.named? "statements" = some v) (hasItems : v.items = .ok items)
      (mem : item ∈ items) (misshapen : Statement.Misshapen item) :
      Document.Misshapen (.table entries)

/-! ## Outcomes of reading -/

namespace Document

/-- How reading may end: only what is not misshapen gives a result, and only what is misshapen can
break the reader down; ill-formed input is refused. -/
def Reads {α : Type} (misshapen : Prop) : Except Error α → Prop :=
  Ends (fun _ => ¬ misshapen) fun e => e.isInvalid = true ∨ (e = .broken .unsupported ∧ misshapen)

/-- Reading that ends so, and gives only results with a property. -/
def ReadsTo {α : Type} (post : α → Prop) (misshapen : Prop) (x : Except Error α) : Prop :=
  Reads misshapen x ∧ Gives post x

/-- Reading that gives well-formed trees. -/
abbrev ReadsTree (misshapen : Prop) (x : Except Error Expr) : Prop :=
  ReadsTo (Expr.AllFormed []) misshapen x

section

variable {α β : Type} {p q : Prop} {post : α → Prop} {next : β → Prop} {bad : Value → Prop}
  {read : Value → Except Error α} {x : Except Error α} {data : Value}

theorem ReadsTo.congr (reads : ReadsTo post p x) (same : p ↔ q) : ReadsTo post q x := by
  rw [← propext same]
  exact reads

theorem reads_ok {a : α} (holds : post a) : ReadsTo post False (.ok a : Except Error α) :=
  ⟨id, holds⟩

theorem reads_pure {a : α} (holds : post a) : ReadsTo post False (pure a : Except Error α) :=
  ⟨id, holds⟩

theorem reads_refuse {fault : DocumentFault} : ReadsTo post p (refuse fault : Except Error α) :=
  ⟨.inl rfl, trivial⟩

/-- One part after the other: either may be misshapen. -/
theorem ReadsTo.bind {f : α → Except Error β} (first : ReadsTo post p x)
    (rest : ∀ a, x = .ok a → post a → ReadsTo next q (f a)) :
    ReadsTo next (p ∨ q) (x >>= f) := by
  refine ⟨?_, first.2.bind fun a given holds => (rest a given holds).2⟩
  refine Ends.bind (first.1.mono (fun _ => id) ?_) fun a given shaped =>
    (rest a given (first.2.of_ok given)).1.mono ?_ ?_
  · rintro e (invalid | ⟨broken, misshapen⟩)
    · exact .inl invalid
    · exact .inr ⟨broken, .inl misshapen⟩
  · exact fun _ shapedRest misshapen => misshapen.elim shaped shapedRest
  · rintro e (invalid | ⟨broken, misshapen⟩)
    · exact .inl invalid
    · exact .inr ⟨broken, .inr misshapen⟩

theorem ReadsTo.map (f : α → Except Error β) (reads : ReadsTo post p x)
    (rest : ∀ a, post a → ReadsTo next False (f a)) : ReadsTo next p (x >>= f) :=
  (reads.bind fun a _ holds => rest a holds).congr (by simp)

theorem reads_mapM {items : List Value}
    (each : ∀ item ∈ items, ReadsTo post (bad item) (read item)) :
    ReadsTo (fun as => ∀ a ∈ as, post a) (∃ item ∈ items, bad item) (items.mapM read) := by
  induction items with
  | nil => exact (reads_pure (forall_mem_nil _)).congr (by simp)
  | cons _ _ ih =>
    rw [forall_mem_cons] at each
    rw [mapM_cons]
    refine (each.1.bind fun a _ first => (ih each.2).map _ fun as others =>
      reads_pure (forall_mem_cons.mpr ⟨first, others⟩)).congr ?_
    simp

def ItemlessAt (entries : Entries) (key : String) : Prop :=
  ∃ v, entries.named? key = some v ∧ v.Itemless

def BadItemAt (bad : Value → Prop) (entries : Entries) (key : String) : Prop :=
  ∃ v, entries.named? key = some v ∧ ∃ items, v.items = .ok items ∧ ∃ item ∈ items, bad item

/-- What is met on the way down: JSON of a smaller depth. -/
def Below (data item : Value) : Prop := item.depth < data.depth ∧ item.IsJson

theorem isJson_of_mem_items {item : Value} {items : List Value} (isJson : v.IsJson)
    (hasItems : v.items = .ok items) (mem : item ∈ items) : item.IsJson := by
  cases isJson with
  | none | number => cases hasItems
  | str =>
    cases hasItems
    obtain ⟨c, -, rfl⟩ := mem_map.mp mem
    exact .str _
  | list all =>
    cases hasItems
    exact all item mem
  | table keys =>
    cases hasItems
    obtain ⟨entry, inside, rfl⟩ := mem_map.mp mem
    obtain ⟨s, isText⟩ := keys entry inside
    rw [isText]
    exact .str s

theorem isJson_of_named? {key : String} (isJson : (Value.table entries).IsJson)
    (given : entries.named? key = some v) : v.IsJson := by
  obtain ⟨_, mem⟩ := Entries.mem_of_named? given
  cases isJson with
  | table _ values => exact values _ mem

theorem below_of_named? {key : String} (isJson : (Value.table entries).IsJson)
    (given : entries.named? key = some v) : Below (.table entries) v :=
  ⟨Entries.depth_lt_of_named? given, isJson_of_named? isJson given⟩

/-- The items of JSON are JSON, and what has no items breaks the reader down. -/
theorem reads_items (below : Below data v) :
    ReadsTo (fun items => ∀ item ∈ items, Below data item) v.Itemless v.items := by
  obtain ⟨deep, isJson⟩ := below
  refine ⟨?_, gives_iff.mpr fun items given item mem =>
    ⟨Nat.lt_of_le_of_lt (Value.depth_le_of_mem_items given mem) deep,
      isJson_of_mem_items isJson given mem⟩⟩
  cases isJson with
  | none | number => exact .inr ⟨rfl, fun items given => by cases given⟩
  | str | list | table => exact fun itemless => itemless _ rfl

theorem reads_field (isJson : (Value.table entries).IsJson) (key : String)
    (each : ∀ item, Below (.table entries) item → ReadsTo post (bad item) (read item))
    {rest : List α → Except Error β}
    (others : ∀ as, (∀ a ∈ as, post a) → ReadsTo next q (rest as)) :
    ReadsTo next (ItemlessAt entries key ∨ BadItemAt bad entries key ∨ q)
      (itemsAt entries key >>= fun items => items.mapM read >>= rest) := by
  unfold itemsAt
  split
  case h_1 v given =>
    have itemless : v.Itemless ↔ ItemlessAt entries key := by simp [ItemlessAt, given]
    refine ((reads_items (below_of_named? isJson given)).congr itemless).bind
      fun items hasItems below => ?_
    have badItem : (∃ item ∈ items, bad item) ↔ BadItemAt bad entries key := by
      simp [BadItemAt, given, hasItems]
    exact ((reads_mapM fun item mem => each item (below item mem)).congr badItem).bind
      fun as _ hold => others as hold
  case h_2 missing =>
    refine (others [] (forall_mem_nil _)).congr ?_
    simp [ItemlessAt, BadItemAt, missing]

end

/-! ## Operators -/

theorem formed_of_children {e : Expr} (plain : e.IsFormed [])
    (children : ∀ c ∈ e.children, c.AllFormed []) : e.AllFormed [] :=
  Expr.allFormed_iff.mpr ⟨plain, children⟩

theorem formed_literal {value : Value} (isJson : value.IsJson) :
    (Expr.literal value).AllFormed [] :=
  formed_of_children isJson.layered fun c mem => by cases mem

/-- Two neighbours that have no order. -/
def Unordered (points : List Value) : Prop :=
  ∃ low high, [low, high] <:+: points ∧ Value.ordered? .greaterEq low high = none

theorem unordered_cons_cons {low high : Value} {rest : List Value} :
    Unordered (low :: high :: rest)
      ↔ Value.ordered? .greaterEq low high = none ∨ Unordered (high :: rest) := by
  constructor
  · rintro ⟨l, h, neighbours, unordered⟩
    rcases infix_cons_iff.mp neighbours with atFront | inside
    · obtain ⟨sameLow, atFront⟩ := cons_prefix_cons.mp atFront
      rw [sameLow, (cons_prefix_cons.mp atFront).1] at unordered
      exact .inl unordered
    · exact .inr ⟨l, h, inside, unordered⟩
  · rintro (unordered | ⟨l, h, inside, unordered⟩)
    · exact ⟨low, high, ⟨[], rest, rfl⟩, unordered⟩
    · exact ⟨l, h, infix_cons inside, unordered⟩

/-- Whether breakpoints increase is undecided only where neighbours have no order, and certain only
where they all have one. -/
theorem increasing?_outcome (points : List Value) :
    (Expr.increasing? points = none → Unordered points) ∧
      (Expr.increasing? points = some true → ¬ Unordered points) := by
  have short : ∀ l : List Value, l.length < 2 → ¬ Unordered l := by
    rintro l isShort ⟨low, high, neighbours, -⟩
    have := neighbours.length_le
    simp at this
    omega
  induction points with
  | nil => exact ⟨fun undecided => (by cases undecided), fun _ => short [] (by simp)⟩
  | cons low rest ih =>
    cases rest with
    | nil => exact ⟨fun undecided => (by cases undecided), fun _ => short [low] (by simp)⟩
    | cons high =>
      rw [unordered_cons_cons, Expr.increasing?]
      cases compared : Value.ordered? .greaterEq low high with
      | none => simp
      | some isAbove =>
        cases isAbove with
        | true => simp
        | false => simpa using ih

/-- Only breakpoints without order break a piecewise function down, and one with fewer or more
slopes than segments is refused. -/
theorem reads_piecewiseOf {operand : Expr} (isFormed : operand.AllFormed [])
    {points slopes offsets : List Value}
    (layered : ∀ v ∈ points ++ slopes ++ offsets, v.Layered) :
    ReadsTree (Unordered points)
      (match Expr.piecewiseOf operand points slopes offsets with
      | .error (.refused cause) => refuse (.piecewise (cause.message?.getD ""))
      | result => result) := by
  obtain ⟨undecided, certain⟩ := increasing?_outcome points
  unfold Expr.piecewiseOf
  dsimp only
  by_cases few : points.length < 2
  · rw [if_pos few]
    exact reads_refuse
  rw [if_neg few]
  by_cases uneven : slopes.length ≠ points.length - 1 ∨ offsets.length ≠ points.length - 1
  · rw [if_pos uneven]
    exact reads_refuse
  rw [if_neg uneven]
  cases isIncreasing : Expr.increasing? points with
  | none => exact ⟨.inr ⟨rfl, undecided isIncreasing⟩, trivial⟩
  | some increasing =>
    cases increasing with
    | true =>
      refine ⟨certain isIncreasing, formed_of_children ⟨?_, ?_, layered⟩
        (forall_mem_singleton.mpr isFormed)⟩
      · omega
      · omega
    | false => exact reads_refuse

/-- An array of a piecewise function has no items, or its breakpoints have no order. -/
def BadPieces (entries : Entries) : Prop :=
  (∃ key ∈ ["breakpoints", "slopes", "intercepts"], ItemlessAt entries key) ∨
  ∃ v points, entries.named? "breakpoints" = some v ∧ v.items = .ok points ∧ Unordered points

theorem reads_piecewise (isJson : (Value.table entries).IsJson) {operand : Expr}
    (isFormed : operand.AllFormed []) :
    ReadsTree (BadPieces entries) (piecewise entries operand) := by
  have fields : ∀ {key v}, entries.named? key = some v →
      ReadsTo (fun items => ∀ item ∈ items, Below (.table entries) item) v.Itemless v.items :=
    fun given => reads_items (below_of_named? isJson given)
  unfold piecewise piecewiseField
  cases isPoints : entries.named? "breakpoints" with
  | none => exact reads_refuse
  | some v =>
  cases isSlopes : entries.named? "slopes" with
  | none => exact reads_refuse
  | some slopes =>
  cases isIntercepts : entries.named? "intercepts" with
  | none => exact reads_refuse
  | some offsets =>
  refine ((fields isPoints).bind fun points given areB => (fields isSlopes).bind
    fun slopes _ areS => (fields isIntercepts).bind fun offsets _ areI => ?_).congr
      (q := BadPieces entries) (p := v.Itemless ∨ slopes.Itemless ∨ offsets.Itemless ∨
        ∃ points, v.items = .ok points ∧ Unordered points) ?_
  · have below := forall_mem_append.mpr ⟨forall_mem_append.mpr ⟨areB, areS⟩, areI⟩
    exact (reads_piecewiseOf isFormed fun v mem => (below v mem).2.layered).congr
      (by simp [given])
  · simp [BadPieces, ItemlessAt, isPoints, isSlopes, isIntercepts, or_assoc]

section

variable (formed : ∀ e ∈ args, e.AllFormed [])
include formed

theorem reads_unary {p : Prop} {op : String} {build : Expr → Except Error Expr}
    (each : ∀ operand, operand.AllFormed [] → ReadsTree p (build operand)) :
    ReadsTree p (unary op build args) := by
  unfold unary
  split
  · exact each _ (formed _ mem_cons_self)
  · exact reads_refuse

theorem reads_binary {op : String} {build : Expr → Expr → Expr}
    (each : ∀ left right, left.AllFormed [] → right.AllFormed []
      → (build left right).AllFormed []) :
    ReadsTree False (binary op build args) := by
  unfold binary
  split
  · simp only [forall_mem_cons] at formed
    exact reads_ok (each _ _ formed.1 formed.2.1)
  · exact reads_refuse

theorem formed_foldl_arith (op : Arithmetic) {first : Expr} (isFormed : first.AllFormed []) :
    (args.foldl (Expr.arith op) first).AllFormed [] := by
  induction args generalizing first with
  | nil => exact isFormed
  | cons _ _ ih =>
    rw [forall_mem_cons] at formed
    refine ih formed.2 (formed_of_children trivial ?_)
    simpa [Expr.children] using ⟨isFormed, formed.1⟩

theorem reads_arithmetic {op : Arithmetic} : ReadsTree False (arithmetic op args) := by
  unfold arithmetic
  split
  · exact reads_ok (formed_of_children trivial formed)
  · rw [forall_mem_cons] at formed
    exact reads_ok (formed_foldl_arith formed.2 op formed.1)
  · exact reads_refuse

/-- Of the operators that are keys, only the piecewise function looks at shapes. -/
theorem reads_operator (isJson : (Value.table entries).IsJson) (op : Value) :
    ReadsTree (op.isKey = false ∨ (op = .str "piecewise" ∧ BadPieces entries))
      (operator op entries args) := by
  -- the other texts among the operators are keys and look at no shape
  have shapeless : ∀ s : String, s ≠ "piecewise" →
      (False ↔ (Value.str s).isKey = false
        ∨ (Value.str s = .str "piecewise" ∧ BadPieces entries)) := by
    intro s other
    simp [Value.isKey, other]
  have one : ∀ {e operand : Expr}, e.IsFormed [] → e.children = [operand] →
      operand.AllFormed [] → e.AllFormed [] := fun plain children isFormed =>
    formed_of_children plain (children ▸ forall_mem_singleton.mpr isFormed)
  have two : ∀ {e left right : Expr}, e.IsFormed [] → e.children = [left, right] →
      left.AllFormed [] → right.AllFormed [] → e.AllFormed [] :=
    fun plain children isLeft isRight => formed_of_children plain
      (children ▸ forall_mem_cons.mpr ⟨isLeft, forall_mem_singleton.mpr isRight⟩)
  unfold operator
  split
  case h_2 =>
    exact ReadsTo.congr (reads_ok (formed_of_children trivial formed)) (shapeless _ (by decide))
  case h_5 =>
    split
    · exact ReadsTo.congr (reads_ok (formed_of_children trivial formed)) (shapeless _ (by decide))
    · exact reads_refuse
  case h_6 =>
    exact ReadsTo.congr (reads_binary formed fun left right => two trivial rfl)
      (shapeless _ (by decide))
  case h_7 =>
    refine (reads_unary formed fun operand => reads_piecewise isJson).congr ?_
    simp [Value.isKey]
  case h_8 s _ _ _ _ _ _ other =>
    refine ReadsTo.congr ?_ (shapeless s other)
    split
    · exact reads_arithmetic formed
    · exact reads_binary formed fun left right => two trivial rfl
    · split
      · exact reads_refuse
      · exact reads_ok (formed_of_children trivial formed)
    · exact reads_refuse
  case h_9 =>
    split
    · exact reads_refuse
    case isFalse noKey => exact ⟨.inr ⟨rfl, .inl (by simpa using noKey)⟩, trivial⟩
  all_goals
    exact ReadsTo.congr (reads_unary formed fun operand isFormed =>
      reads_ok (one trivial rfl isFormed)) (shapeless _ (by decide))

end

/-! ## Trees and bindings -/

theorem reads_dotKey {e : Expr} :
    ReadsTree (e.text? = none) (raise (.dotKey e) : Except Error Expr) := by
  refine ⟨Ends.raise (fun _ => .inl rfl) fun wordless => .inr ⟨rfl, ?_⟩,
    Ends.raise (fun _ => trivial) fun _ => trivial⟩
  cases written : e.text? with
  | none => rfl
  | some => simp [Cause.message?, written] at wordless

theorem reads_lookupStep {inner e : Expr} (isInner : inner.AllFormed []) (isKey : e.AllFormed [])
    (dot : Bool) : ReadsTree (dot = true ∧ e.text? = none) (inner.lookupStep e dot) := by
  have joined : ∀ dot, (Expr.lookup inner e dot).IsFormed [] →
      (Expr.lookup inner e dot).AllFormed [] := fun dot plain =>
    formed_of_children plain (forall_mem_cons.mpr ⟨isInner, forall_mem_singleton.mpr isKey⟩)
  unfold Expr.lookupStep
  cases dot with
  | false => exact (reads_ok (joined false fun dotted => by cases dotted)).congr (by simp)
  | true =>
    refine ReadsTo.congr (p := e.text? = none) ?_ (by simp)
    simp only [Bool.not_true, Bool.false_eq_true, if_false]
    split
    · split
      · exact (reads_ok (joined true fun _ => ⟨_, rfl, not_mem_nil⟩)).congr (by simp [Expr.text?])
      · exact reads_dotKey
    · exact reads_dotKey

/-- The keys of a lookup chain are read and joined one after the other. -/
theorem reads_steps {bad : Value → Prop} {read : Value → Except Error Expr} (dot : Bool)
    (keys : List Value) (each : ∀ key ∈ keys, ReadsTree (bad key) (read key)) {start : Expr}
    (isStart : start.AllFormed []) :
    ReadsTree ((∃ key ∈ keys, bad key) ∨
        dot = true ∧ ∃ key ∈ keys, ∃ e, read key = .ok e ∧ e.text? = none)
      (keys.foldlM (fun inner key => do Expr.lookupStep inner (← read key) dot) start) := by
  induction keys generalizing start with
  | nil => exact (reads_pure isStart).congr (by simp)
  | cons key _ ih =>
    rw [forall_mem_cons] at each
    rw [foldlM_cons]
    have first : ReadsTree (bad key ∨ dot = true ∧ ∃ e, read key = .ok e ∧ e.text? = none)
        (read key >>= fun e => start.lookupStep e dot) :=
      each.1.bind fun e given isKey =>
        (reads_lookupStep isStart isKey dot).congr (by simp [given])
    refine (first.bind fun next _ isNext => ih each.2 isNext).congr ?_
    rw [exists_mem_cons_iff, exists_mem_cons_iff, and_or_left]
    exact or_or_or_comm

/-- One of the keys of a chain has no written form. -/
def WordlessKey (steps : Value) : Prop :=
  ∃ root keys, steps.items = .ok (root :: keys) ∧
    ∃ key ∈ keys, ∃ e, Expr.ofJson key = .ok e ∧ e.text? = none

/-- A chain in a field: its root and its keys are trees, and dotted keys have a written form. -/
theorem reads_chain {bad : Value → Prop} {key : String} {steps : Value}
    (isJson : (Value.table entries).IsJson) (given : entries.named? key = some steps) (dot : Bool)
    (each : ∀ item, Below (.table entries) item → ReadsTree (bad item) (Expr.ofJson item)) :
    ReadsTree (ItemlessAt entries key ∨ BadItemAt bad entries key
        ∨ (dot = true ∧ WordlessKey steps))
      (steps.items >>= chain Expr.ofJson dot) := by
  have itemless : steps.Itemless ↔ ItemlessAt entries key := by simp [ItemlessAt, given]
  refine ((reads_items (below_of_named? isJson given)).congr itemless).bind
    fun items hasItems below => ?_
  have trees : ∀ item ∈ items, ReadsTree (bad item) (Expr.ofJson item) := fun item mem =>
    each item (below item mem)
  cases items with
  | nil => exact ⟨.inl rfl, trivial⟩
  | cons _ keys =>
    rw [forall_mem_cons] at trees
    refine (trees.1.bind fun start _ isStart => reads_steps dot keys trees.2 isStart).congr ?_
    simp [BadItemAt, WordlessKey, given, hasItems, or_assoc]

end Document

namespace Expr

theorem misshapen_table :
    Expr.Misshapen (.table entries) ↔
      (∃ key ∈ (node entries).arrays, ItemlessAt entries key) ∨
      (∃ key, (node entries).trees? = some key ∧ BadItemAt Expr.Misshapen entries key) ∨
      (∃ body, node entries = .summation body ∧
        (BadItemAt GeneratorItem.Misshapen entries "over" ∨ Expr.Misshapen body)) ∨
      (∃ op, node entries = .operation op ∧ (op.isKey = false ∨ (op = .str "piecewise" ∧
        ∃ v points, entries.named? "breakpoints" = some v ∧ v.items = .ok points ∧
          Unordered points))) ∨
      ∃ steps, node entries = .dotted steps ∧ WordlessKey steps := by
  constructor
  · intro misshapen
    cases misshapen with
    | array isArray given itemless => exact .inl ⟨_, isArray, _, given, itemless⟩
    | tree areTrees given hasItems mem misshapen =>
      exact .inr (.inl ⟨_, areTrees, _, given, _, hasItems, _, mem, misshapen⟩)
    | binding isSum given hasItems mem misshapen =>
      exact .inr (.inr (.inl ⟨_, isSum, .inl ⟨_, given, _, hasItems, _, mem, misshapen⟩⟩))
    | body isSum misshapen => exact .inr (.inr (.inl ⟨_, isSum, .inr misshapen⟩))
    | operator isOperation noKey => exact .inr (.inr (.inr (.inl ⟨_, isOperation, .inl noKey⟩)))
    | breakpoints isPiecewise given hasItems neighbours unordered =>
      exact .inr (.inr (.inr (.inl ⟨_, isPiecewise,
        .inr ⟨rfl, _, _, given, hasItems, _, _, neighbours, unordered⟩⟩)))
    | dotKey isDotted hasItems mem read wordless =>
      exact .inr (.inr (.inr (.inr ⟨_, isDotted, _, _, hasItems, _, mem, _, read, wordless⟩)))
  · rintro (⟨key, isArray, v, given, itemless⟩
      | ⟨key, areTrees, v, given, items, hasItems, item, mem, misshapen⟩
      | ⟨body, isSum, ⟨v, given, items, hasItems, item, mem, misshapen⟩ | misshapen⟩
      | ⟨op, isOperation, noKey |
          ⟨rfl, v, points, given, hasItems, low, high, neighbours, unordered⟩⟩
      | ⟨steps, isDotted, root, keys, hasItems, key, mem, e, read, wordless⟩)
    · exact .array isArray given itemless
    · exact .tree areTrees given hasItems mem misshapen
    · exact .binding isSum given hasItems mem misshapen
    · exact .body isSum misshapen
    · exact .operator isOperation noKey
    · exact .breakpoints isOperation given hasItems neighbours unordered
    · exact .dotKey isDotted hasItems mem read wordless

end Expr

namespace Document

theorem Node.arrays_operation {op : Value} (other : op ≠ .str "piecewise") :
    (Node.operation op).arrays = ["args"] := by
  rw [Node.arrays]
  exact other

section

variable {data : Value}
  (exprs : ∀ v, Below data v → ReadsTree (Expr.Misshapen v) (Expr.ofJson v))
include exprs

theorem reads_node (isTable : data = .table entries) (isJson : data.IsJson)
    (bindings : ∀ v, Below data v →
      ReadsTo (GeneratorItem.IsFormed []) (GeneratorItem.Misshapen v) (GeneratorItem.ofJson v)) :
    ReadsTree (Expr.Misshapen data) (readNode Expr.ofJson GeneratorItem.ofJson entries) := by
  subst isTable
  rw [Expr.misshapen_table]
  have part : ∀ {key v}, (node entries).part? = some (key, v) → entries.named? key = some v :=
    named?_of_part?
  unfold readNode
  split
  case h_1 value isNode =>
    have isJson := isJson_of_named? isJson (part (by rw [isNode]; rfl))
    exact (reads_ok (formed_literal isJson)).congr (by simp [isNode, Node.arrays, Node.trees?])
  case h_2 name isNode =>
    refine ReadsTo.congr (reads_field isJson "index" exprs fun _ formed =>
      reads_pure (formed_of_children trivial formed)) ?_
    simp [isNode, Node.arrays, Node.trees?]
  case h_3 steps isNode =>
    refine (reads_chain isJson (part (by rw [isNode]; rfl)) true exprs).congr ?_
    simp [isNode, Node.arrays, Node.trees?]
  case h_4 steps isNode =>
    refine (reads_chain isJson (part (by rw [isNode]; rfl)) false exprs).congr ?_
    simp [isNode, Node.arrays, Node.trees?]
  case h_5 body isNode =>
    have reads := exprs body (below_of_named? isJson (part (by rw [isNode]; rfl)))
    have built : ∀ gens, (∀ item ∈ gens, GeneratorItem.IsFormed [] item) →
        ∀ body, body.AllFormed [] → (Expr.sumOver body gens).AllFormed [] :=
      fun gens formed body isBody =>
        formed_of_children (fun item mem => (formed item mem).1) (forall_mem_cons.mpr
          ⟨isBody, forall_mem_flatMap.mpr fun item mem => (formed item mem).2⟩)
    refine ReadsTo.congr (reads_field isJson "args" exprs fun _ _ =>
      reads_field isJson "over" bindings fun gens formed =>
        reads.map _ fun _ isBody => reads_pure (built gens formed _ isBody)) ?_
    simp only [isNode, Node.arrays, Node.trees?, exists_mem_cons_iff, not_mem_nil,
      false_and, exists_false, or_false, Option.some.injEq, exists_eq_left', Node.summation.injEq,
      reduceCtorEq]
    tauto
  case h_6 op isNode =>
    refine (reads_field isJson "args" exprs fun args formed =>
      reads_operator formed isJson op).congr ?_
    by_cases isPiecewise : op = .str "piecewise"
    · subst isPiecewise
      simp [isNode, Node.arrays, Node.trees?, BadPieces, Value.isKey]
      tauto
    · simp [isNode, Node.arrays_operation, isPiecewise, Node.trees?]
  case h_7 isNode => exact reads_refuse

theorem reads_binding (isJson : data.IsJson) :
    ReadsTo (GeneratorItem.IsFormed []) (GeneratorItem.Misshapen data)
      (readBinding Expr.ofJson data) := by
  unfold readBinding
  split
  case h_1 entries =>
    cases given : Entries.named? entries "filter" with
    | none => exact reads_refuse
    | some cond =>
      refine ReadsTo.congr ((exprs cond (below_of_named? isJson given)).map _ fun _ formed =>
        reads_pure ⟨trivial, forall_mem_singleton.mpr formed⟩)
          ⟨.filter given, fun misshapen => ?_⟩
      cases misshapen with
      | filter given' misshapen => cases given.symm.trans given'; exact misshapen
  case h_2 name items =>
    -- a list of data is kept as a tuple
    refine ⟨fun misshapen => ?_, ?_, fun e mem => by cases mem⟩
    · cases misshapen with
      | domain misshapen => cases misshapen
    · cases isJson with
      | list all =>
        have isJson : (Value.list items).IsJson := all _ (by simp)
        cases isJson with
        | list all => exact Value.layered_tuple fun item mem => (all item mem).layered
  case h_3 name domain other =>
    have below : Below (.list [.str name, domain]) domain := by
      refine ⟨by simp [Value.depth, Value.depthItems]; omega, ?_⟩
      cases isJson with
      | list all => exact all domain (by simp)
    refine ReadsTo.congr ((exprs domain below).map _ fun _ formed =>
      reads_pure ⟨trivial, forall_mem_singleton.mpr formed⟩) ⟨.domain, fun misshapen => ?_⟩
    cases misshapen with
    | domain misshapen => exact misshapen
  case h_4 => exact reads_refuse

end

/-- Reading trees and bindings, by induction on the depth of the value. -/
theorem reads_parts (data : Value) (isJson : data.IsJson) :
    ReadsTree (Expr.Misshapen data) (Expr.ofJson data) ∧
      ReadsTo (GeneratorItem.IsFormed []) (GeneratorItem.Misshapen data)
        (GeneratorItem.ofJson data) := by
  induction isDepth : data.depth using Nat.strongRecOn generalizing data with
  | ind depth ih =>
  have exprs : ∀ v, Below data v → ReadsTree (Expr.Misshapen v) (Expr.ofJson v) :=
    fun v below => (ih v.depth (isDepth ▸ below.1) v below.2 rfl).1
  have bindings : ∀ v, Below data v →
      ReadsTo (GeneratorItem.IsFormed []) (GeneratorItem.Misshapen v) (GeneratorItem.ofJson v) :=
    fun v below => (ih v.depth (isDepth ▸ below.1) v below.2 rfl).2
  rw [Expr.ofJson_eq, GeneratorItem.ofJson_eq]
  refine ⟨?_, reads_binding exprs isJson⟩
  cases isJson with
  | none | list => exact reads_refuse
  | number x =>
    cases x with
    | bool => exact reads_refuse
    | int | float => exact ⟨(nomatch ·), formed_literal (.number _)⟩
  | str s =>
    refine ⟨(nomatch ·), ?_⟩
    show Expr.AllFormed [] (if s == "_" then .wildcard else .symbol s)
    split <;> exact formed_of_children trivial fun c mem => by cases mem
  | table keys values => exact reads_node exprs rfl (.table keys values) bindings

/-! ## Statements and documents -/

/-- A bound is read as a tree unless it is a number, text or nothing, which are never misshapen. -/
theorem reads_bound (isJson : (Value.table entries).IsJson) (key : String) :
    ReadsTo (Datum.IsFormed []) (∃ v, entries.named? key = some v ∧ Expr.Misshapen v)
      (readBound (entries.named? key)) := by
  cases given : entries.named? key with
  | none => exact (reads_ok trivial).congr (by simp)
  | some v =>
    have isJson := isJson_of_named? isJson given
    have tree : ReadsTo (Datum.IsFormed []) (Expr.Misshapen v)
        (do pure (.tree (← Expr.ofJson v))) :=
      (reads_parts v isJson).1.map _ fun _ formed => reads_pure formed
    refine ReadsTo.congr (p := Expr.Misshapen v) ?_ (by simp)
    cases isJson with
    | none | number | str => exact ⟨(nomatch ·), trivial⟩
    | list | table => exact tree

def BadTree (entries : Entries) : Prop :=
  ∃ key ∈ statementTrees entries, ∃ v, entries.named? key = some v ∧ Expr.Misshapen v

theorem misshapen_statement :
    ItemlessAt entries "over" ∨ BadItemAt GeneratorItem.Misshapen entries "over" ∨ BadTree entries
      ↔ Statement.Misshapen (.table entries) := by
  constructor
  · rintro (⟨v, given, itemless⟩ | ⟨v, given, items, hasItems, item, mem, misshapen⟩
      | ⟨key, isTree, v, given, misshapen⟩)
    · exact .array given itemless
    · exact .binding given hasItems mem misshapen
    · exact .tree isTree given misshapen
  · intro misshapen
    cases misshapen with
    | array given itemless => exact .inl ⟨_, given, itemless⟩
    | binding given hasItems mem misshapen =>
      exact .inr (.inl ⟨_, given, _, hasItems, _, mem, misshapen⟩)
    | tree isTree given misshapen => exact .inr (.inr ⟨_, isTree, _, given, misshapen⟩)

theorem reads_statement (data : Value) (isJson : data.IsJson) :
    ReadsTo (Statement.IsFormed []) (Statement.Misshapen data) (Statement.ofJson data) := by
  unfold Statement.ofJson
  split
  case h_2 => exact reads_refuse
  case h_1 entries =>
    have trees : ∀ {key v}, Entries.named? entries key = some v →
        ReadsTree (Expr.Misshapen v) (Expr.ofJson v) :=
      fun given => (reads_parts _ (isJson_of_named? isJson given)).1
    refine (reads_field isJson "over" (fun v below => (reads_parts v below.2).2)
      fun gens formed => ?_).congr misshapen_statement
    split
    case h_1 name isFamily =>
      refine ReadsTo.congr ((reads_bound isJson "min_bound").bind fun _ _ isLower =>
        (reads_bound isJson "max_bound").map _ fun _ isUpper => reads_pure ⟨formed, ?_⟩) ?_
      · simpa [Statement.data] using ⟨isLower, isUpper⟩
      · simp [BadTree, statementTrees, isFamily]
    case h_2 constraint noFamily given =>
      refine ReadsTo.congr ((trees given).map _ fun e isFormed => ?_) ?_
      · split
        · have parts := (Expr.allFormed_iff.mp isFormed).2
          refine reads_pure ⟨formed, ?_⟩
          simpa [Statement.data, Datum.IsFormed, Expr.children] using parts
        · exact reads_refuse
      · simp [BadTree, statementTrees, noFamily, given]
    case h_3 goal noFamily noConstraint given =>
      refine ReadsTo.congr ((trees given).map _ fun e isFormed => reads_pure
        ⟨by simp [Statement.generators], forall_mem_singleton.mpr isFormed⟩) ?_
      simp [BadTree, statementTrees, noFamily, noConstraint, given]
    case h_4 => exact reads_refuse

theorem reads_document (data : Value) (isJson : data.IsJson) :
    Reads (Document.Misshapen data) (Document.ofJson data) := by
  suffices reads : ReadsTo (fun _ => True) (Document.Misshapen data) (Document.ofJson data) from
    reads.1
  unfold Document.ofJson
  split
  case h_2 => exact reads_refuse
  case h_1 entries =>
    split
    case h_2 => exact reads_refuse
    case h_1 params _ =>
      refine (reads_field isJson "statements" (fun v below => reads_statement v below.2)
        fun statements _ => reads_pure trivial).congr ?_
      constructor
      · rintro (⟨v, given, itemless⟩ | ⟨v, given, items, hasItems, item, mem, misshapen⟩ | ⟨⟨⟩⟩)
        · exact .array given itemless
        · exact .statement given hasItems mem misshapen
      · intro misshapen
        cases misshapen with
        | array given itemless => exact .inl ⟨_, given, itemless⟩
        | statement given hasItems mem misshapen =>
          exact .inr (.inl ⟨_, given, _, hasItems, _, mem, misshapen⟩)

theorem reads_text (text : String) :
    Reads (∃ data, Json.parse text = .ok data ∧ Document.Misshapen data) (Document.parse text) := by
  unfold Document.parse
  split
  case h_1 data read => simpa [read] using reads_document data (Json.parse_isJson read)
  case h_2 e _ =>
    split
    · exact .inl rfl
    · exact .inl rfl

/-- **What loading ends in.** From any JSON value, and from any text, reading a document, a
statement, a binding or a tree ends in a result, in a refusal of ill-formed input, or in a breakdown
because of an unsupported operation. A breakdown comes of a misshapen part only, and what has a
misshapen part is never read. -/
theorem loading_outcome (data : Value) (isJson : data.IsJson) (text : String) :
    Reads (Document.Misshapen data) (Document.ofJson data) ∧
      Reads (Statement.Misshapen data) (Statement.ofJson data) ∧
      Reads (GeneratorItem.Misshapen data) (GeneratorItem.ofJson data) ∧
      Reads (Expr.Misshapen data) (Expr.ofJson data) ∧
      Reads (∃ value, Json.parse text = .ok value ∧ Document.Misshapen value)
        (Document.parse text) :=
  ⟨reads_document data isJson, (reads_statement data isJson).1, (reads_parts data isJson).2.1,
    (reads_parts data isJson).1.1, reads_text text⟩

def rangingOverNumber : Value :=
  .table [(.str "statements", .list [.table [(.str "variables", .str "x"), (.str "over", .int 5)]])]

theorem rangingOverNumber_isJson : rangingOverNumber.IsJson := by
  simp [rangingOverNumber]

theorem loading_outcome_rangingOverNumber :
    Document.Misshapen rangingOverNumber ∧
      Reads (Document.Misshapen rangingOverNumber) (Document.ofJson rangingOverNumber) := by
  refine ⟨.statement rfl rfl (List.mem_singleton_self _) (.array rfl ?_),
    (loading_outcome rangingOverNumber rangingOverNumber_isJson "").1⟩
  intro items given
  cases given

/-- Not every malformed document is refused as ill-formed input. -/
theorem rangingOverNumber_not_refused :
    rangingOverNumber.IsJson ∧ Document.ofJson rangingOverNumber = .error (.broken .unsupported) ∧
      Error.isInvalid (.broken .unsupported) = false :=
  ⟨rangingOverNumber_isJson, rfl, rfl⟩

end Document

end LinearProgram
