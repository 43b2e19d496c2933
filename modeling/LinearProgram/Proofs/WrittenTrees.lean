import LinearProgram.Proofs.LegibleTrees

/-!
# Reading written trees back

`Written.readTree` reads a legible tree off the front of a text (`Expr.readable`), so the written
form determines the tree (`Expr.text_inj`). Lookup steps are written behind their container; the
induction carries those that are still to be read (`Written.ReadsSteps`).
-/

namespace LinearProgram

open List
open Bool (and_eq_true)
open Option (bind_eq_bind bind_eq_some_iff bind_some)

variable {e operand cond : Expr} {c : Char} {rest : List Char} {texts : List String} {n : Nat}
  {name text word l r : String} {gens : List GeneratorItem}

theorem Value.quoted_tuple (items : List Value) : (tuple items).quoted = tupleQuoted items := by
  have each : ∀ items, quotedItems items = items.map quoted := by
    intro items
    induction items with
    | nil => rfl
    | cons _ _ ih => rw [quotedItems, ih, map_cons]
  rw [quoted, each, tupleQuoted]

namespace Written

/-! ## The reader -/

def readOperator {α : Type} (ofSign? : String → Option α) : Reader α
  | ' ' :: cs => do
    let op ← ofSign? (String.ofList (cs.takeWhile (· != ' ')))
    pure (op, (cs.dropWhile (· != ' ')).tail)
  | _ => none

section Parts

variable (tree : Reader Expr)

/-- Read the steps of a lookup. Two dots are no step. -/
def readSteps : Nat → Expr → Reader Expr
  | fuel + 1, e, '[' :: cs => do
    let (key, cs) ← tree cs
    let cs ← skip [']'] cs
    readSteps fuel (.lookup e key false) cs
  | _ + 1, e, '.' :: '.' :: cs => some (e, '.' :: '.' :: cs)
  | fuel + 1, e, '.' :: cs =>
    let (name, cs) := readName cs
    readSteps fuel (.lookup e (.symbol name) true) cs
  | _, e, cs => some (e, cs)

/-- Read the domain of a generator: a tree or a tuple. -/
def readDatum : Reader Datum := fun cs =>
  match tree cs with
  | some (e, cs) => some (.tree e, cs)
  | none => do
    let (values, cs) ← readTuple readValue cs
    pure (.data (.tuple values), cs)

def readItem : Reader GeneratorItem := fun cs =>
  let (word, cs) := readName cs
  match word with
  | "Generator" => do
    let cs ← skip "(name=".toList cs
    let (name, cs) ← readValue cs
    let name ← name.str?
    let cs ← skip ", domain=".toList cs
    let (domain, cs) ← readDatum tree cs
    let cs ← skip [')'] cs
    pure (.generator name domain, cs)
  | "Filter" => do
    let cs ← skip "(expr=".toList cs
    let (cond, cs) ← tree cs
    let cs ← skip [')'] cs
    pure (.filter cond, cs)
  | _ => none

/-- Read the operands of a node that takes any number of them. -/
def readArgs (node : List Expr → Expr) : Reader Expr := fun cs => do
  let cs ← skip "args=".toList cs
  let (args, cs) ← readTuple tree cs
  let cs ← skip [')'] cs
  pure (node args, cs)

/-- Read the fields of a node that is written by name, up to its closing bracket. -/
def readFields (word : String) : Reader Expr := fun cs =>
  match word with
  | "Sum" => readArgs tree .sum cs
  | "Max" => readArgs tree (.aggregate .max) cs
  | "Min" => readArgs tree (.aggregate .min) cs
  | "And" => readArgs tree (.aggregate .and) cs
  | "Or" => readArgs tree (.aggregate .or) cs
  | "GeneratorSum" => do
    let cs ← skip "body=".toList cs
    let (body, cs) ← tree cs
    let cs ← skip ", generators=".toList cs
    let (gens, cs) ← readTuple (readItem tree) cs
    let cs ← skip [')'] cs
    pure (.sumOver body gens, cs)
  | "each" => do
    let (pattern, cs) ← tree cs
    let cs ← skip [')'] cs
    pure (.each pattern, cs)
  | "Abs" => do
    let cs ← skip "expr=".toList cs
    let (operand, cs) ← tree cs
    let cs ← skip [')'] cs
    pure (.abs operand, cs)
  | "IfThenElse" => do
    let cs ← skip "cond=".toList cs
    let (cond, cs) ← tree cs
    let cs ← skip ", then=".toList cs
    let (yes, cs) ← tree cs
    let cs ← skip ", else_=".toList cs
    let (no, cs) ← tree cs
    let cs ← skip [')'] cs
    pure (.ifThenElse cond yes no, cs)
  | "PiecewiseLinear" => do
    let cs ← skip "expr=".toList cs
    let (operand, cs) ← tree cs
    let cs ← skip ", breakpoints=".toList cs
    let (breakpoints, cs) ← readTuple readValue cs
    let cs ← skip ", slopes=".toList cs
    let (slopes, cs) ← readTuple readValue cs
    let cs ← skip ", intercepts=".toList cs
    let (offsets, cs) ← readTuple readValue cs
    let cs ← skip [')'] cs
    pure (.piecewise operand breakpoints slopes offsets, cs)
  | _ => none

def readIndices (family : String) : Reader Expr
  | '[' :: cs => do
    let (indices, cs) ← readList tree (cs.length + 1) cs
    pure (.ref (.str family) indices, cs)
  | cs => some (.ref (.str family) [], cs)

variable (families : List String)

def readNamed (word : String) : Reader Expr
  | '(' :: cs => readFields tree word cs
  | cs =>
    if word = "_" then some (.wildcard, cs)
    else if families.contains word then readIndices tree word cs
    else some (.symbol word, cs)

/-- Read a tree up to its lookup steps. -/
def readBase : Reader Expr
  | '(' :: cs => do
    let (left, cs) ← tree cs
    let (op, cs) ← readOperator Arithmetic.ofSign? cs
    let (right, cs) ← tree cs
    let cs ← skip [')'] cs
    pure (.arith op left right, cs)
  | c :: cs =>
    if Expr.isNameStart c then
      let (word, cs) := readName (c :: cs)
      readNamed tree families word cs
    else do
      let (value, cs) ← readValue (c :: cs)
      pure (.literal value, cs)
  | [] => none

/-- What a minus sign and a tree are read as: the sign in front of a number belongs to it. -/
def negated : Expr → Expr
  | .literal (.number (.int n)) => .literal (.int (-n))
  | e => .negate e

/-- Read a tree that is no comparison and no range. -/
def readTight (tight : Reader Expr) : Reader Expr
  | '-' :: cs => do
    let (operand, cs) ← tight cs
    pure (negated operand, cs)
  | cs => do
    let (e, cs) ← readBase tree families cs
    readSteps tree cs.length e cs

end Parts

/-- Read what makes a tree the left operand of a comparison or a range. -/
def readRight (tight : Reader Expr) (left : Expr) : Reader Expr
  | '.' :: '.' :: cs => do
    let (right, cs) ← tight cs
    pure (.range left right, cs)
  | cs =>
    match readOperator Comparison.ofSign? cs with
    | some (op, cs) => do
      let (right, cs) ← tight cs
      pure (.compare op left right, cs)
    | none => some (left, cs)

/-- Read a tree, a `loose` one only where it says so. Each level of a tree costs one
unit of fuel. -/
def readTree (families : List String) : Nat → Bool → Reader Expr
  | 0, _, _ => none
  | fuel + 1, loose, cs => do
    let (e, cs) ← readTight (readTree families fuel true) families
      (readTree families fuel false) cs
    if loose then readRight (readTree families fuel false) e cs else pure (e, cs)

/-! ## What may stand behind a tree -/

/-- A tree cannot go on with this, unless as the left operand of a comparison or a range. -/
inductive Closes : List Char → Prop
  | nil : Closes []
  | mark {c : Char} (rest : List Char) (isMark : c = ',' ∨ c = ')' ∨ c = ']' ∨ c = ' ') :
      Closes (c :: rest)
  | dots (rest : List Char) : Closes ('.' :: '.' :: rest)

structure ClosesLoose (rest : List Char) : Prop where
  closes : Closes rest
  alone : ∀ tight left, readRight tight left rest = some (left, rest)

/-- Neither a name nor the head of a named node goes on with this. -/
def Apart (rest : List Char) : Prop := Stops Expr.isNameChar rest ∧ rest.head? ≠ some '('

theorem Closes.apart (closes : Closes rest) : Apart rest := by
  cases closes with
  | nil => exact ⟨fun c found => (by cases found), by simp⟩
  | mark _ isMark =>
    rcases isMark with rfl | rfl | rfl | rfl <;> exact ⟨stops_cons.mpr rfl, by simp⟩
  | dots => exact ⟨stops_cons.mpr rfl, by simp⟩

theorem closesLoose_mark (isMark : c = ',' ∨ c = ')' ∨ c = ']') (rest : List Char) :
    ClosesLoose (c :: rest) := by
  rcases isMark with rfl | rfl | rfl <;> exact ⟨.mark rest (by simp), fun _ _ => rfl⟩

theorem closesLoose_nil : ClosesLoose [] := ⟨.nil, fun _ _ => rfl⟩

theorem readOperator_append {α : Type} {ofSign? : String → Option α} {op : α} {sign : String}
    (known : ofSign? sign = some op) (solid : ∀ c ∈ sign.toList, (c != ' ') = true)
    (rest : List Char) :
    readOperator ofSign? (' ' :: (sign.toList ++ ' ' :: rest)) = some (op, rest) := by
  obtain ⟨taken, left⟩ := span_append solid (stops_cons.mpr rfl : Stops (· != ' ') (' ' :: rest))
  rw [readOperator, taken, left, String.ofList_toList, known]
  rfl

theorem readOperator_arithmetic (op : Arithmetic) (rest : List Char) :
    readOperator Arithmetic.ofSign? (' ' :: (op.sign.toList ++ ' ' :: rest)) = some (op, rest) :=
  readOperator_append (by cases op <;> rfl) (by cases op <;> simp [Arithmetic.sign]) rest

theorem readOperator_comparison (op : Comparison) (rest : List Char) :
    readOperator Comparison.ofSign? (' ' :: (op.sign.toList ++ ' ' :: rest)) = some (op, rest) :=
  readOperator_append (by cases op <;> rfl) (by cases op <;> simp [Comparison.sign]) rest

/-- An arithmetic operator is no comparison. -/
theorem closesLoose_arithmetic (op : Arithmetic) (rest : List Char) :
    ClosesLoose (' ' :: (op.sign.toList ++ ' ' :: rest)) := by
  refine ⟨.mark _ (by simp), fun tight left => ?_⟩
  cases op <;> rfl

theorem readSteps_of_closes (closes : Closes rest) (tree : Reader Expr) (fuel : Nat) (e : Expr) :
    readSteps tree fuel e rest = some (e, rest) := by
  cases fuel with
  | zero => rfl
  | succ =>
    cases closes with
    | nil | dots => rfl
    | mark _ isMark => rcases isMark with rfl | rfl | rfl | rfl <;> rfl

/-! ## The parts of a node -/

/-- A text is read back, wherever something of a kind follows. -/
def Reads {α : Type} (reader : Reader α) (follows : List Char → Prop) (a : α) (text : String) :
    Prop :=
  ∀ rest, follows rest → reader (text.toList ++ rest) = some (a, rest)

section Nodes

variable {tree tight : Reader Expr} {families : List String}

theorem Reads.mark (read : Reads tree ClosesLoose e text) {c : Char}
    (isMark : c = ',' ∨ c = ')' ∨ c = ']') (rest : List Char) :
    tree (text.toList ++ c :: rest) = some (e, c :: rest) :=
  read _ (closesLoose_mark isMark rest)

theorem Reads.comma (read : Reads tree ClosesLoose e text) (word : String)
    (isComma : word.toList.head? = some ',') (rest : List Char) :
    tree (text.toList ++ (word.toList ++ rest)) = some (e, word.toList ++ rest) := by
  obtain ⟨cs, chars⟩ := head?_eq_some_iff.mp isComma
  rw [chars]
  exact read.mark (.inl rfl) _

theorem Reads.part (read : Reads tree ClosesLoose e text) {close : Char}
    (closes : close = ')' ∨ close = ']') : ReadsPart tree close e text := by
  intro c rest follows
  refine read.mark ?_ rest
  rcases follows with rfl | rfl
  · exact .inl rfl
  · exact .inr closes

/-- A node with any number of operands. -/
theorem readFields_args {node : List Expr → Expr} {args : List Expr}
    (isNode : readFields tree word = readArgs tree node)
    (ends : ∀ rest, tree (')' :: rest) = none) (each : Forall₂ (Reads tree ClosesLoose) args texts)
    (rest : List Char) :
    readFields tree word ("args=".toList ++ ((Value.tupleText texts).toList ++ ')' :: rest))
      = some (node args, rest) := by
  have parts := each.imp fun _ _ read => Reads.part read (.inl rfl)
  rw [isNode, readArgs, skip_append, bind_eq_bind, bind_some, readTuple_append ends parts]
  rfl

theorem readFields_word (op : Aggregate) :
    readFields tree op.word = readArgs tree (.aggregate op) := by
  cases op <;> rfl

theorem readFields_each (read : Reads tree ClosesLoose e text) (rest : List Char) :
    readFields tree "each" (text.toList ++ ')' :: rest) = some (.each e, rest) := by
  rw [readFields, read.mark (by simp)]
  rfl

theorem readFields_abs (read : Reads tree ClosesLoose e text) (rest : List Char) :
    readFields tree "Abs" ("expr=".toList ++ (text.toList ++ ')' :: rest))
      = some (.abs e, rest) := by
  rw [readFields, skip_append, bind_eq_bind, bind_some, read.mark (by simp)]
  rfl

theorem readFields_ifThenElse {yes no : Expr} {c t e : String}
    (readCond : Reads tree ClosesLoose cond c) (readThen : Reads tree ClosesLoose yes t)
    (readElse : Reads tree ClosesLoose no e) (rest : List Char) :
    readFields tree "IfThenElse" ("cond=".toList ++ (c.toList ++ (", then=".toList ++ (t.toList
      ++ (", else_=".toList ++ (e.toList ++ ')' :: rest))))))
      = some (.ifThenElse cond yes no, rest) := by
  simp only [readFields, skip_append, bind_eq_bind, bind_some,
    readCond.comma ", then=" rfl, readThen.comma ", else_=" rfl, readElse.mark (.inr (.inl rfl))]
  rfl

theorem readFields_piecewise {breakpoints slopes offsets}
    (read : Reads tree ClosesLoose operand text) (words : ∀ v ∈ breakpoints, isWord v = true)
    (slopeWords : ∀ v ∈ slopes, isWord v = true)
    (interceptWords : ∀ v ∈ offsets, isWord v = true) (rest : List Char) :
    readFields tree "PiecewiseLinear" ("expr=".toList ++ (text.toList ++ (", breakpoints=".toList
      ++ ((Value.tupleQuoted breakpoints).toList ++ (", slopes=".toList
      ++ ((Value.tupleQuoted slopes).toList ++ (", intercepts=".toList
      ++ ((Value.tupleQuoted offsets).toList ++ ')' :: rest))))))))
      = some (.piecewise operand breakpoints slopes offsets, rest) := by
  simp only [readFields, skip_append, bind_eq_bind, bind_some,
    read.comma ", breakpoints=" rfl, readTuple_quoted words, readTuple_quoted slopeWords,
    readTuple_quoted interceptWords]
  rfl

/-! Binding lists -/

theorem readDatum_tree (read : Reads tree ClosesLoose e text) (rest : List Char) :
    readDatum tree (text.toList ++ ')' :: rest) = some (.tree e, ')' :: rest) := by
  rw [readDatum, read.mark (by simp)]

/-- Trees are not written as tuples are. -/
theorem readDatum_data {values : List Value} (words : ∀ v ∈ values, isWord v = true)
    (rest : List Char)
    (noTree : tree ((Value.tupleQuoted values).toList ++ ')' :: rest) = none) :
    readDatum tree ((Value.tupleQuoted values).toList ++ ')' :: rest)
      = some (.data (.tuple values), ')' :: rest) := by
  rw [readDatum, noTree, readTuple_quoted words]
  rfl

theorem readItem_filter (read : Reads tree ClosesLoose cond text) (rest : List Char) :
    readItem tree (("Filter(expr=" ++ text ++ ")").toList ++ rest) = some (.filter cond, rest) := by
  have shown : ("Filter(expr=" ++ text ++ ")").toList ++ rest
      = "Filter".toList ++ ("(expr=".toList ++ (text.toList ++ ')' :: rest)) := by simp
  have stops : Stops Expr.isNameChar ("(expr=".toList ++ (text.toList ++ ')' :: rest)) :=
    stops_cons.mpr rfl
  rw [shown, readItem, readName_append (by decide) stops]
  simp only [skip_append, bind_eq_bind, bind_some, read.mark (.inr (.inl rfl))]
  rfl

theorem readItem_generator {domain : Datum}
    (read : ∀ rest, readDatum tree (text.toList ++ ')' :: rest) = some (domain, ')' :: rest))
    (rest : List Char) :
    readItem tree (("Generator(name=" ++ Quoted.quote name ++ ", domain=" ++ text ++ ")").toList
      ++ rest) = some (.generator name domain, rest) := by
  have shown : ("Generator(name=" ++ Quoted.quote name ++ ", domain=" ++ text ++ ")").toList ++ rest
      = "Generator".toList ++ ("(name=".toList ++ ((Quoted.quote name).toList
        ++ (", domain=".toList ++ (text.toList ++ ')' :: rest)))) := by simp
  have stops : Stops Expr.isNameChar ("(name=".toList ++ ((Quoted.quote name).toList
      ++ (", domain=".toList ++ (text.toList ++ ')' :: rest)))) := stops_cons.mpr rfl
  rw [shown, readItem, readName_append (by decide) stops]
  simp only [skip_append, bind_eq_bind, bind_some, readValue_quote, read, Value.str?]
  rfl

theorem readFields_sumOver {body : Expr} (read : Reads tree ClosesLoose body text)
    (each : Forall₂ (fun item text => ∀ rest, readItem tree (text.toList ++ rest)
      = some (item, rest)) gens texts) (rest : List Char) :
    readFields tree "GeneratorSum" ("body=".toList ++ (text.toList ++ (", generators=".toList
      ++ ((Value.tupleText texts).toList ++ ')' :: rest))))
      = some (.sumOver body gens, rest) := by
  have parts : Forall₂ (ReadsPart (readItem tree) ')') gens texts :=
    each.imp fun item text read c rest _ => read (c :: rest)
  simp only [readFields, skip_append, bind_eq_bind, bind_some,
    read.comma ", generators=" rfl, readTuple_append (fun _ => rfl) parts]
  rfl

/-! ## Trees up to their lookup steps -/

/-- A tree is read up to the steps that stand behind it. The fuel is enough for all of them. -/
def ReadsSteps (tree tight : Reader Expr) (families : List String) (e : Expr) (text : String) :
    Prop :=
  ∀ rest, Apart rest → ∃ fuel, rest.length ≤ fuel
    ∧ readTight tree families tight (text.toList ++ rest) = readSteps tree fuel e rest

theorem ReadsSteps.closed (read : ReadsSteps tree tight families e text) :
    Reads (readTight tree families tight) Closes e text := by
  intro rest closes
  obtain ⟨fuel, -, step⟩ := read rest closes.apart
  rw [step, readSteps_of_closes closes]

theorem isNameStart_ne (start : Expr.isNameStart c = true) : c ≠ '-' ∧ c ≠ '(' := by
  constructor <;>
  · rintro rfl
    cases start

theorem readTight_name (named : isName word = true) (stops : Stops Expr.isNameChar rest) :
    readTight tree families tight (word.toList ++ rest) = (do
      let (e, cs) ← readNamed tree families word rest
      readSteps tree cs.length e cs) := by
  have name := readName_append named stops
  obtain ⟨c, cs, chars, start, -⟩ := isName_cons named
  obtain ⟨noSign, noBracket⟩ := isNameStart_ne start
  rw [chars, cons_append] at name ⊢
  rw [readTight, readBase, if_pos start, name]
  · exact noBracket
  · exact fun _ same => noSign (List.cons.inj same).1

theorem readsSteps_of_name (named : isName word = true)
    (read : ∀ rest, Apart rest → readNamed tree families word rest = some (e, rest)) :
    ReadsSteps tree tight families e word := by
  intro rest apart
  refine ⟨rest.length, Nat.le_refl _, ?_⟩
  rw [readTight_name named apart.1, read rest apart]
  rfl

theorem readNamed_of_apart (apart : Apart rest) :
    readNamed tree families word rest
      = if word = "_" then some (.wildcard, rest)
        else if families.contains word then readIndices tree word rest
        else some (.symbol word, rest) := by
  rw [readNamed]
  rintro cs rfl
  exact apart.2 rfl

theorem readsSteps_wildcard : ReadsSteps tree tight families .wildcard "_" := by
  refine readsSteps_of_name (by decide) fun rest apart => ?_
  rw [readNamed_of_apart apart, if_pos rfl]

theorem isProperName_iff : Expr.isProperName name = true ↔ isName name = true ∧ name ≠ "_" := by
  simp [Expr.isProperName]

theorem readsSteps_symbol (proper : Expr.isProperName name = true)
    (free : families.contains name = false) :
    ReadsSteps tree tight families (.symbol name) name := by
  obtain ⟨named, noWildcard⟩ := isProperName_iff.mp proper
  refine readsSteps_of_name named fun rest apart => ?_
  rw [readNamed_of_apart apart, if_neg noWildcard, free]
  rfl

theorem readIndices_append (ends : ∀ rest, tree (']' :: rest) = none) {indices : List Expr}
    {texts : List String} (each : Forall₂ (Reads tree ClosesLoose) indices texts)
    (family : String) (rest : List Char) :
    readIndices tree family ('[' :: ((Value.commas texts).toList ++ ']' :: rest))
      = some (.ref (.str family) indices, rest) := by
  have parts := each.imp fun _ _ read => Reads.part read (.inr rfl)
  rw [readIndices, readList_whole (.inr rfl) ends parts]
  rfl

theorem readsSteps_ref {indices : List Expr} (proper : Expr.isProperName name = true)
    (family : families.contains name = true) (ends : ∀ rest, tree (']' :: rest) = none)
    (each : Forall₂ (Reads tree ClosesLoose) indices texts) :
    ReadsSteps tree tight families (.ref (.str name) indices)
      (name ++ "[" ++ Value.commas texts ++ "]") := by
  obtain ⟨named, noWildcard⟩ := isProperName_iff.mp proper
  intro rest _
  refine ⟨rest.length, Nat.le_refl _, ?_⟩
  have shown : (name ++ "[" ++ Value.commas texts ++ "]").toList ++ rest
      = name.toList ++ '[' :: ((Value.commas texts).toList ++ ']' :: rest) := by simp
  rw [shown, readTight_name named (stops_cons.mpr rfl),
    readNamed_of_apart ⟨stops_cons.mpr rfl, by simp⟩, if_neg noWildcard, if_pos family,
    readIndices_append ends each]
  rfl

/-- A family's name alone, where no index list follows. -/
theorem readTight_family (proper : Expr.isProperName name = true)
    (family : families.contains name = true) :
    Reads (readTight tree families tight) Closes (.ref (.str name) []) name := by
  obtain ⟨named, noWildcard⟩ := isProperName_iff.mp proper
  intro rest closes
  rw [readTight_name named closes.apart.1, readNamed_of_apart closes.apart, if_neg noWildcard,
    if_pos family]
  cases closes with
  | nil | dots => rfl
  | mark _ isMark => rcases isMark with rfl | rfl | rfl | rfl <;> rfl

theorem readsSteps_fields {fields : List Char → List Char} (named : isName word = true)
    (read : ∀ rest, readFields tree word (fields rest) = some (e, rest))
    (shown : ∀ rest, text.toList ++ rest = word.toList ++ '(' :: fields rest) :
    ReadsSteps tree tight families e text := by
  intro rest _
  refine ⟨rest.length, Nat.le_refl _, ?_⟩
  rw [shown, readTight_name named (stops_cons.mpr rfl), readNamed, read]
  rfl

theorem readsSteps_arith {left right : Expr} (readLeft : Reads tree ClosesLoose left l)
    (readRight : Reads tree ClosesLoose right r) (op : Arithmetic) :
    ReadsSteps tree tight families (.arith op left right)
      ("(" ++ l ++ " " ++ op.sign ++ " " ++ r ++ ")") := by
  intro rest _
  refine ⟨rest.length, Nat.le_refl _, ?_⟩
  have shown : ("(" ++ l ++ " " ++ op.sign ++ " " ++ r ++ ")").toList ++ rest
      = '(' :: (l.toList ++ ' ' :: (op.sign.toList ++ ' ' :: (r.toList ++ ')' :: rest))) := by simp
  rw [shown, readTight, readBase, readLeft _ (closesLoose_arithmetic op _)]
  · simp only [bind_eq_bind, bind_some, readOperator_arithmetic,
      readRight.mark (.inr (.inl rfl))]
    rfl
  · rintro _ ⟨⟩

theorem readsSteps_text (s : String) :
    ReadsSteps tree tight families (.literal (.str s)) (Quoted.quote s) := by
  intro rest _
  refine ⟨rest.length, Nat.le_refl _, ?_⟩
  have isQuote := quoteFor_cases s.toList
  have read := readValue_quote s rest
  rw [toList_quote] at read ⊢
  generalize Quoted.quoteFor s.toList = quote at isQuote read
  have noName : ¬ Expr.isNameStart quote = true := by rcases isQuote with rfl | rfl <;> decide
  rw [readTight, readBase, if_neg noName, read]
  · rfl
  · rcases isQuote with rfl | rfl <;> decide
  · rintro _ ⟨⟩
    rcases isQuote with same | same <;> cases same

theorem readsSteps_lookup {container key : Expr} {c k : String}
    (readContainer : ReadsSteps tree tight families container c)
    (readKey : Reads tree ClosesLoose key k) :
    ReadsSteps tree tight families (.lookup container key false) (c ++ "[" ++ k ++ "]") := by
  intro rest _
  obtain ⟨fuel, enough, read⟩ := readContainer ('[' :: (k.toList ++ ']' :: rest))
    ⟨stops_cons.mpr rfl, by simp⟩
  obtain ⟨fuel, rfl⟩ : ∃ n, fuel = n + 1 := ⟨fuel - 1, by simp at enough; omega⟩
  refine ⟨fuel, by simp at enough; omega, ?_⟩
  have shown : (c ++ "[" ++ k ++ "]").toList ++ rest
      = c.toList ++ '[' :: (k.toList ++ ']' :: rest) := by simp
  rw [shown, read, readSteps, readKey.mark (by simp)]
  rfl

theorem readsSteps_dot {container : Expr} {c : String} (named : isName name = true)
    (readContainer : ReadsSteps tree tight families container c) :
    ReadsSteps tree tight families (.lookup container (.symbol name) true) (c ++ "." ++ name) := by
  intro rest apart
  obtain ⟨fuel, enough, read⟩ := readContainer ('.' :: (name.toList ++ rest))
    ⟨stops_cons.mpr rfl, by simp⟩
  obtain ⟨fuel, rfl⟩ : ∃ n, fuel = n + 1 := ⟨fuel - 1, by simp at enough; omega⟩
  refine ⟨fuel, by simp at enough; omega, ?_⟩
  have shown : (c ++ "." ++ name).toList ++ rest = c.toList ++ '.' :: (name.toList ++ rest) := by
    simp
  obtain ⟨d, ds, chars, start, -⟩ := isName_cons named
  rw [shown, read, readSteps, readName_append named apart.1]
  rintro cs same
  rw [chars] at same
  cases same
  cases start

theorem not_isNameStart_of_isDigit (digit : c.isDigit = true) : Expr.isNameStart c = false := by
  simp only [Char.isDigit, Expr.isNameStart, Char.isAlpha, Char.isUpper, Char.isLower,
    and_eq_true, decide_eq_true_eq, Bool.or_eq_false_iff, Bool.and_eq_false_iff,
    decide_eq_false_iff_not, UInt32.le_iff_toNat_le, beq_eq_false_iff_ne] at digit ⊢
  obtain ⟨least, most⟩ : 48 ≤ c.val.toNat ∧ c.val.toNat ≤ 57 := digit
  have noUpper : ¬ 65 ≤ c.val.toNat := by omega
  have noLower : ¬ 97 ≤ c.val.toNat := by omega
  refine ⟨⟨fun upper => noUpper upper.1, .inl noLower⟩, ?_⟩
  rintro rfl
  exact absurd most (by decide)

/-- The digits of a number are read up to what no tree can go on with. -/
theorem readTight_digits (k : Nat) :
    Reads (readTight tree families tight) Closes (.literal (.int k)) (Decimal.digitText k) := by
  intro rest closes
  have stops : Stops Char.isDigit rest := by
    intro c found
    have noName := closes.apart.1 c found
    simp only [Expr.isNameChar, Char.isAlphanum, Bool.or_eq_false_iff] at noName
    exact noName.1.2
  have read : readValue ((Decimal.digitText k).toList ++ rest) = some (.int k, rest) :=
    readValue_quoted (v := .int k) rfl stops
  obtain ⟨c, cs, chars⟩ := exists_cons_of_ne_nil (Decimal.digitText_ne_nil k)
  have isDigit : c.isDigit = true := Decimal.isDigit_of_mem (chars ▸ mem_cons_self)
  have noName : ¬ Expr.isNameStart c = true := by simp [not_isNameStart_of_isDigit isDigit]
  rw [chars, cons_append] at read ⊢
  rw [readTight, readBase, if_neg noName, read]
  · exact readSteps_of_closes closes tree _ _
  · rintro rfl
    cases isDigit
  · rintro _ ⟨⟩
    cases isDigit

theorem readTight_negated (read : Reads tight Closes operand text) :
    Reads (readTight tree families tight) Closes (negated operand) ("-" ++ text) := by
  intro rest closes
  rw [String.toList_append, append_assoc]
  show readTight tree families tight ('-' :: (text.toList ++ rest)) = _
  rw [readTight, read rest closes]
  rfl

theorem negated_eq (noNumeral : operand.isNumeral = false) : negated operand = .negate operand := by
  unfold negated
  split
  · cases noNumeral
  · rfl

end Nodes

/-! ## Trees -/

section Trees

variable {families : List String}

theorem readTree_tight (n : Nat) (cs : List Char) :
    readTree families (n + 1) false cs
      = readTight (readTree families n true) families (readTree families n false) cs := by
  rw [readTree]
  cases readTight (readTree families n true) families (readTree families n false) cs <;> rfl

theorem readTree_loose {cs : List Char}
    (read : readTree families (n + 1) false cs = some (e, rest)) :
    readTree families (n + 1) true cs = readRight (readTree families n false) e rest := by
  rw [readTree_tight] at read
  rw [readTree, read]
  rfl

theorem readTree_close (isClose : c = ')' ∨ c = ']') (n : Nat) (loose : Bool) (rest : List Char) :
    readTree families n loose (c :: rest) = none := by
  cases n with
  | zero => rfl
  | succ => rcases isClose with rfl | rfl <;> rfl

/-- A tree can be read back with a unit of fuel for each level. -/
structure Readable (families : List String) (n : Nat) (e : Expr) (text : String) : Prop where
  tree : Reads (readTree families (n + 1) true) ClosesLoose e text
  tight : e.isLoose = false → Reads (readTree families (n + 1) false) Closes e text
  steps : e.isHandle = true →
    ReadsSteps (readTree families n true) (readTree families n false) families e text

theorem Reads.loose (read : Reads (readTree families (n + 1) false) Closes e text) :
    Reads (readTree families (n + 1) true) ClosesLoose e text := by
  intro rest closes
  rw [readTree_loose (read rest closes.closes)]
  exact closes.alone _ _

theorem Readable.of_reads (read : Reads (readTight (readTree families n true) families
      (readTree families n false)) Closes e text) (steps : e.isHandle = true →
      ReadsSteps (readTree families n true) (readTree families n false) families e text) :
    Readable families n e text := by
  have tight : Reads (readTree families (n + 1) false) Closes e text :=
    fun rest closes => by rw [readTree_tight, read rest closes]
  exact ⟨tight.loose, fun _ => tight, steps⟩

theorem Readable.of_tight (noHandle : e.isHandle = false)
    (read : Reads (readTight (readTree families n true) families (readTree families n false))
      Closes e text) : Readable families n e text :=
  .of_reads read fun isHandle => by simp [isHandle] at noHandle

theorem Readable.of_steps
    (read : ReadsSteps (readTree families n true) (readTree families n false) families e text) :
    Readable families n e text := .of_reads read.closed fun _ => read

theorem Readable.of_loose (loose : e.isLoose = true) (noHandle : e.isHandle = false)
    (read : Reads (readTree families (n + 1) true) ClosesLoose e text) :
    Readable families n e text := by
  refine ⟨read, fun tight => ?_, fun isHandle => ?_⟩
  · rw [loose] at tight
    cases tight
  · rw [isHandle] at noHandle
    cases noHandle

theorem readTree_digits (n k : Nat) :
    Reads (readTree families (n + 1) false) Closes (.literal (.int k)) (Decimal.digitText k) := by
  intro rest closes
  rw [readTree_tight, readTight_digits k rest closes]

theorem readable_word {value : Value} (word : isWord value = true) (n : Nat) :
    Readable families (n + 1) (.literal value) value.quoted := by
  cases value with
  | str s => exact .of_steps (readsSteps_text s)
  | number x =>
    cases x with
    | int k =>
      rw [Value.quoted, Number.text]
      split
      case isTrue negative =>
        have isNegated : negated (.literal (.int k.natAbs)) = .literal (.int k) := by
          rw [Int.ofNat_natAbs_of_nonpos (Int.le_of_lt negative)]
          show Expr.literal (.int (- -k)) = _
          rw [Int.neg_neg]
        exact .of_tight rfl (isNegated ▸ readTight_negated (readTree_digits n k.natAbs))
      case isFalse positive =>
        refine .of_tight rfl ?_
        have digits : Reads (readTight (readTree families (n + 1) true) families
            (readTree families (n + 1) false)) Closes (.literal (.int k.natAbs))
            (Decimal.digitText k.natAbs) := readTight_digits k.natAbs
        rwa [Int.natAbs_of_nonneg (Int.not_lt.mp positive)] at digits
    | _ => cases word
  | _ => cases word

theorem tupleQuoted_cons (value : Value) (values : List Value) :
    ∃ more, (Value.tupleQuoted (value :: values)).toList
      = '(' :: (value.quoted.toList ++ ',' :: more) := by
  cases values with
  | nil => exact ⟨[')'], by simp [Value.tupleQuoted, Value.tupleText]⟩
  | cons =>
    exact ⟨_, by simp [Value.tupleQuoted, Value.tupleText, Value.commas,
      String.intercalate_cons_cons]; rfl⟩

/-- A tuple is not read as a tree: no operator follows its first item. -/
theorem readTree_tuple {values : List Value} (words : ∀ v ∈ values, isWord v = true) (n : Nat)
    (rest : List Char) :
    readTree families (n + 3) true ((Value.tupleQuoted values).toList ++ rest) = none := by
  cases values with
  | nil => rfl
  | cons value values =>
    have readable : Readable families (n + 1) (.literal value) value.quoted :=
      readable_word (words value mem_cons_self) n
    obtain ⟨more, chars⟩ := tupleQuoted_cons value values
    rw [chars, cons_append, append_assoc, cons_append, readTree, readTight,
      readBase, readable.tree.mark (.inl rfl)]
    · rfl
    · rintro _ ⟨⟩

theorem readTree_compare {left right : Expr}
    (readLeft : Reads (readTree families (n + 1) false) Closes left l)
    (readRight : Reads (readTree families n false) Closes right r) (op : Comparison) :
    Reads (readTree families (n + 1) true) ClosesLoose (.compare op left right)
      (l ++ " " ++ op.sign ++ " " ++ r) := by
  intro rest closes
  have shown : (l ++ " " ++ op.sign ++ " " ++ r).toList ++ rest
      = l.toList ++ ' ' :: (op.sign.toList ++ ' ' :: (r.toList ++ rest)) := by simp
  rw [shown, readTree_loose (readLeft _ (.mark _ (by simp))), Written.readRight,
    readOperator_comparison]
  · dsimp only
    rw [readRight rest closes.closes]
    rfl
  · rintro _ ⟨⟩

theorem readTree_range {start stop : Expr}
    (readStart : Reads (readTree families (n + 1) false) Closes start l)
    (readStop : Reads (readTree families n false) Closes stop r) :
    Reads (readTree families (n + 1) true) ClosesLoose (.range start stop) (l ++ ".." ++ r) := by
  intro rest closes
  have shown : (l ++ ".." ++ r).toList ++ rest = l.toList ++ '.' :: '.' :: (r.toList ++ rest) := by
    simp
  rw [shown, readTree_loose (readStart _ (.dots _)), readRight, readStop rest closes.closes]
  rfl

end Trees

end Written

namespace Expr

open Written

variable {families : List String}

/-- The parts of a list that is shown part by part are shown. -/
theorem forall₂_of_shown {α : Type} {one : α → Option String} {all : List α → Option (List String)}
    {P : α → String → Prop} {l : List α} (shown : all l = some texts) (start : all [] = some [])
    (next : ∀ a l, all (a :: l) = (do
      let first ← one a
      let others ← all l
      pure (first :: others))) (each : ∀ a ∈ l, ∀ text, one a = some text → P a text) :
    Forall₂ P l texts := by
  induction l generalizing texts with
  | nil =>
    cases start.symm.trans shown
    exact .nil
  | cons a rest ih =>
    obtain ⟨first, shownFirst, shown⟩ := bind_eq_some_iff.mp ((next a rest).symm.trans shown)
    obtain ⟨others, shownOthers, ⟨⟩⟩ := bind_eq_some_iff.mp shown
    rw [forall_mem_cons] at each
    exact .cons (each.1 first shownFirst) (ih shownOthers each.2)

/-- The text that a reference shows begins with the family's name. -/
theorem text_ref {name : Value} {indices : List Expr} (legible : isFamily families name = true)
    (shown : (ref name indices).text? = some text) :
    ∃ family, name = .str family ∧ isProperName family = true ∧ families.contains family = true
      ∧ (indices = [] ∧ text = family ∨ indices ≠ [] ∧ ∃ texts, textAll? indices = some texts
        ∧ text = family ++ "[" ++ Value.commas texts ++ "]") := by
  cases name with
  | str family =>
    rw [isFamily, and_eq_true] at legible
    refine ⟨family, rfl, legible.1, legible.2, ?_⟩
    cases indices with
    | nil =>
      cases shown
      exact .inl ⟨rfl, rfl⟩
    | cons =>
      obtain ⟨texts, shownAll, ⟨⟩⟩ := bind_eq_some_iff.mp shown
      exact .inr ⟨cons_ne_nil _ _, texts, shownAll, rfl⟩
  | _ => cases legible

theorem readItem_text {tree : Reader Expr} {item : GeneratorItem}
    (legible : isLegibleItem families item = true) (shown : textItem? item = some text)
    (read : ∀ c ∈ item.children, c.isLegible families = true → ∀ text, c.text? = some text →
      Reads tree ClosesLoose c text)
    (noTree : ∀ values : List Value, (∀ v ∈ values, isWord v = true) → ∀ rest,
      tree ((Value.tupleQuoted values).toList ++ rest) = none) (rest : List Char) :
    readItem tree (text.toList ++ rest) = some (item, rest) := by
  cases item with
  | filter cond =>
    obtain ⟨c, shownCond, ⟨⟩⟩ := bind_eq_some_iff.mp shown
    exact readItem_filter (read cond mem_cons_self legible c shownCond) rest
  | generator _ domain =>
    obtain ⟨d, shownDomain, ⟨⟩⟩ := bind_eq_some_iff.mp shown
    refine readItem_generator (fun rest => ?_) rest
    cases domain with
    | tree e => exact readDatum_tree (read e mem_cons_self legible d shownDomain) rest
    | data value =>
      cases shownDomain
      cases value with
      | tuple items =>
        have words : ∀ v ∈ items, isWord v = true := all_eq_true.mp legible
        rw [Value.quoted_tuple]
        exact readDatum_data words rest (noTree items words _)
      | _ => cases legible

/-- What the subtrees of a node are read as, with the fuel of the node and with less. -/
structure Below (families : List String) (n : Nat) (e : Expr) : Prop where
  here : ∀ c ∈ e.children, c.isLegible families = true → ∀ {text}, c.text? = some text →
    Readable families (n + 1) c text
  below : ∀ c ∈ e.children, c.isLegible families = true → ∀ {text}, c.text? = some text →
    Readable families n c text

/-- A legible node is read back if its subtrees are. -/
def Restored (families : List String) (n : Nat) (e : Expr) : Prop :=
  Below families n e → e.isLegible families = true → ∀ {text}, e.text? = some text →
    Readable families (n + 1) e text

namespace Below

variable {n : Nat}

theorem trees (known : Below families n e) {trees : List Expr}
    (members : ∀ c ∈ trees, c ∈ e.children) (legible : areLegible families trees = true)
    {texts : List String} (shown : textAll? trees = some texts) :
    Forall₂ (Reads (readTree families (n + 1) true) ClosesLoose) trees texts := by
  rw [areLegible_iff] at legible
  exact forall₂_of_shown shown rfl (fun _ _ => rfl) fun c mem _ shown =>
    (known.below c (members c mem) (legible c mem) shown).tree

variable {container key left right : Expr} {name : Value} {args : List Expr}

theorem ref : Restored families n (.ref name args) := by
  intro known legible text shown
  rw [isLegible, and_eq_true] at legible
  obtain ⟨family, rfl, proper, isKnown, ⟨rfl, rfl⟩ | ⟨-, texts, shownAll, rfl⟩⟩ :=
    text_ref legible.1 shown
  · exact .of_tight rfl (readTight_family proper isKnown)
  · exact .of_steps (readsSteps_ref proper isKnown (readTree_close (.inr rfl) _ _)
      (known.trees (fun _ mem => mem) legible.2 shownAll))

theorem lookup {dot : Bool} : Restored families n (.lookup container key dot) := by
  intro known legible text shown
  obtain ⟨c, shownContainer, shown⟩ := bind_eq_some_iff.mp shown
  obtain ⟨k, shownKey, ⟨⟩⟩ := bind_eq_some_iff.mp shown
  rw [isLegible, and_eq_true, and_eq_true] at legible
  obtain ⟨⟨isHandle, legibleContainer⟩, legibleKey⟩ := legible
  have readable := known.here container (by simp [children]) legibleContainer shownContainer
  have readContainer := readable.steps isHandle
  cases dot with
  | false =>
    have readKey := (known.below key (by simp [children]) legibleKey shownKey).tree
    exact .of_steps (readsSteps_lookup readContainer readKey)
  | true =>
    cases key with
    | symbol =>
      cases shownKey
      exact .of_steps (readsSteps_dot legibleKey readContainer)
    | _ => cases legibleKey

theorem arith {op : Arithmetic} : Restored families n (.arith op left right) := by
  intro known legible text shown
  obtain ⟨l, shownLeft, shown⟩ := bind_eq_some_iff.mp shown
  obtain ⟨r, shownRight, ⟨⟩⟩ := bind_eq_some_iff.mp shown
  rw [isLegible, and_eq_true] at legible
  have readLeft := (known.below left (by simp [children]) legible.1 shownLeft).tree
  have readRight := (known.below right (by simp [children]) legible.2 shownRight).tree
  exact .of_steps (readsSteps_arith readLeft readRight op)

theorem negate : Restored families n (.negate operand) := by
  intro known legible text shown
  obtain ⟨o, shownOperand, ⟨⟩⟩ := bind_eq_some_iff.mp shown
  simp only [isLegible, and_eq_true, Bool.not_eq_true_eq_eq_false] at legible
  obtain ⟨⟨tight, noNumeral⟩, legibleOperand⟩ := legible
  have read := (known.below operand (by simp [children]) legibleOperand shownOperand).tight tight
  refine .of_tight rfl ?_
  rw [← negated_eq noNumeral]
  exact readTight_negated read

/-- The operands of a comparison or a range. -/
theorem operands (known : Below families n e) (isChildren : e.children = [left, right])
    (legible : ((!left.isLoose && isLegible families left)
      && (!right.isLoose && isLegible families right)) = true) {l r : String}
    (shownLeft : left.text? = some l) (shownRight : right.text? = some r) :
    Reads (readTree families (n + 2) false) Closes left l
      ∧ Reads (readTree families (n + 1) false) Closes right r := by
  simp only [and_eq_true, Bool.not_eq_true_eq_eq_false] at legible
  obtain ⟨⟨tightLeft, legibleLeft⟩, tightRight, legibleRight⟩ := legible
  exact ⟨(known.here left (by simp [isChildren]) legibleLeft shownLeft).tight tightLeft,
    (known.below right (by simp [isChildren]) legibleRight shownRight).tight tightRight⟩

theorem compare {op : Comparison} : Restored families n (.compare op left right) := by
  intro known legible text shown
  obtain ⟨l, shownLeft, shown⟩ := bind_eq_some_iff.mp shown
  obtain ⟨r, shownRight, ⟨⟩⟩ := bind_eq_some_iff.mp shown
  obtain ⟨readLeft, readRight⟩ := known.operands rfl legible shownLeft shownRight
  exact .of_loose rfl rfl (readTree_compare readLeft readRight op)

theorem range : Restored families n (.range left right) := by
  intro known legible text shown
  obtain ⟨l, shownLeft, shown⟩ := bind_eq_some_iff.mp shown
  obtain ⟨r, shownRight, ⟨⟩⟩ := bind_eq_some_iff.mp shown
  obtain ⟨readLeft, readRight⟩ := known.operands rfl legible shownLeft shownRight
  exact .of_loose rfl rfl (readTree_range readLeft readRight)

theorem sum : Restored families n (.sum args) := by
  intro known legible text shown
  obtain ⟨texts, shownAll, ⟨⟩⟩ := bind_eq_some_iff.mp shown
  have parts := known.trees (fun _ mem => mem) legible shownAll
  have read := readFields_args (rfl : readFields _ "Sum" = _) (readTree_close (.inl rfl) _ _) parts
  exact .of_steps (readsSteps_fields (by decide) read (by simp))

theorem aggregate {op : Aggregate} : Restored families n (.aggregate op args) := by
  intro known legible text shown
  obtain ⟨texts, shownAll, ⟨⟩⟩ := bind_eq_some_iff.mp shown
  have parts := known.trees (fun _ mem => mem) legible shownAll
  have read := readFields_args (readFields_word op) (readTree_close (.inl rfl) _ _) parts
  exact .of_steps (readsSteps_fields (by cases op <;> decide) read (by simp))

/-- A sum over bindings. Two levels are left for a domain that is given as a tuple. -/
theorem sumOver {body : Expr} : Restored families (n + 2) (.sumOver body gens) := by
  intro known legible text shown
  obtain ⟨b, shownBody, shown⟩ := bind_eq_some_iff.mp shown
  obtain ⟨texts, shownItems, ⟨⟩⟩ := bind_eq_some_iff.mp shown
  rw [isLegible, and_eq_true, areLegibleItems_iff] at legible
  have readBody := (known.below body (by simp [children]) legible.1 shownBody).tree
  have items : Forall₂ (fun item text => ∀ rest,
      readItem (readTree families (n + 3) true) (text.toList ++ rest) = some (item, rest))
      gens texts := by
    refine forall₂_of_shown shownItems rfl (fun _ _ => rfl) fun item mem text shown => ?_
    refine readItem_text (legible.2 item mem) shown ?_ fun values words =>
      readTree_tuple words n
    intro c child legible text shown
    refine (known.below c ?_ legible shown).tree
    exact mem_cons_of_mem _ (mem_flatMap.mpr ⟨item, mem, child⟩)
  exact .of_steps (readsSteps_fields (by decide) (readFields_sumOver readBody items) (by simp))

theorem each {pattern : Expr} : Restored families n (.each pattern) := by
  intro known legible text shown
  obtain ⟨p, shownPattern, ⟨⟩⟩ := bind_eq_some_iff.mp shown
  have read := (known.below pattern (by simp [children]) legible shownPattern).tree
  exact .of_steps (readsSteps_fields (by decide) (readFields_each read) (by simp))

theorem abs : Restored families n (.abs operand) := by
  intro known legible text shown
  obtain ⟨o, shownOperand, ⟨⟩⟩ := bind_eq_some_iff.mp shown
  have read := (known.below operand (by simp [children]) legible shownOperand).tree
  exact .of_steps (readsSteps_fields (by decide) (readFields_abs read) (by simp))

theorem ifThenElse {yes no : Expr} :
    Restored families n (.ifThenElse cond yes no) := by
  intro known legible text shown
  obtain ⟨c, shownCond, shown⟩ := bind_eq_some_iff.mp shown
  obtain ⟨t, shownThen, shown⟩ := bind_eq_some_iff.mp shown
  obtain ⟨e, shownElse, ⟨⟩⟩ := bind_eq_some_iff.mp shown
  simp only [isLegible, and_eq_true] at legible
  have readCond := (known.below cond (by simp [children]) legible.1.1 shownCond).tree
  have readThen := (known.below yes (by simp [children]) legible.1.2 shownThen).tree
  have readElse := (known.below no (by simp [children]) legible.2 shownElse).tree
  exact .of_steps (readsSteps_fields (by decide)
    (readFields_ifThenElse readCond readThen readElse) (by simp))

theorem piecewise {breakpoints slopes offsets : List Value} :
    Restored families n (.piecewise operand breakpoints slopes offsets) := by
  intro known legible text shown
  obtain ⟨o, shownOperand, ⟨⟩⟩ := bind_eq_some_iff.mp shown
  simp only [isLegible, and_eq_true, all_eq_true] at legible
  obtain ⟨legibleOperand, ⟨words, slopeWords⟩, interceptWords⟩ := legible
  have read := (known.below operand (by simp [children]) legibleOperand shownOperand).tree
  exact .of_steps (readsSteps_fields (by decide)
    (readFields_piecewise read words slopeWords interceptWords) (by simp))

end Below

/-- A tree is read back, given more fuel than it has nodes. -/
theorem readable (legible : e.isLegible families = true) {text : String}
    (shown : e.text? = some text) {n : Nat} (enough : e.weight < n) :
    Readable families n e text := by
  induction e using induction_on_children generalizing text n with
  | step e ih =>
  have weigh := weight_eq_children e
  obtain ⟨n, rfl⟩ : ∃ m, n = m + 1 := ⟨n - 1, by omega⟩
  have known : Below families n e := by
    constructor <;>
    · intro c mem legible text shown
      have lighter := weight_lt_of_child mem
      exact ih c mem legible shown (by omega)
  cases e with
  | wildcard =>
    cases shown
    exact .of_steps readsSteps_wildcard
  | literal =>
    cases shown
    exact readable_word legible n
  | symbol =>
    cases shown
    rw [isLegible, and_eq_true, Bool.not_eq_true_eq_eq_false] at legible
    exact .of_steps (readsSteps_symbol legible.1 legible.2)
  | ref => exact known.ref legible shown
  | lookup => exact known.lookup legible shown
  | arith => exact known.arith legible shown
  | negate => exact known.negate legible shown
  | compare => exact known.compare legible shown
  | range => exact known.range legible shown
  | sum => exact known.sum legible shown
  | aggregate => exact known.aggregate legible shown
  | sumOver body =>
    have heavy := weight_eq_children body
    obtain ⟨n, rfl⟩ : ∃ m, n = m + 2 := ⟨n - 2, by simp [weight] at enough; omega⟩
    exact known.sumOver legible shown
  | each => exact known.each legible shown
  | abs => exact known.abs legible shown
  | ifThenElse => exact known.ifThenElse legible shown
  | piecewise => exact known.piecewise legible shown

/-- The written form of a legible tree determines the tree. -/
theorem text_inj {e' : Expr} (legible : e.isLegible families = true)
    (legible' : e'.isLegible families = true) {text : String} (shown : e.text? = some text)
    (shown' : e'.text? = some text) : e = e' := by
  have read := (readable legible shown (n := e.weight + e'.weight + 1) (by omega)).tree
    [] closesLoose_nil
  have read' := (readable legible' shown' (n := e.weight + e'.weight + 1) (by omega)).tree []
    closesLoose_nil
  rw [read] at read'
  injection read' with pair
  exact (Prod.mk.inj pair).1

end Expr

end LinearProgram
