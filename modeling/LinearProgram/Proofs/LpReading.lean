import LinearProgram.Proofs.LpLines

/-!
# LP text says what a model is

`LpText.read` takes LP text apart again. From the text of a model with whole data it gives back the
objective, rows, bounds and kinds under their LP names (`Model.reading`), because names, numbers,
bounds and headers can be told apart by their looks.
-/

namespace LinearProgram

open List

/-- A row as LP text shows it. -/
structure RowReading where
  name : String
  terms : List (String × Number)
  relation : Relation
  rhs : Number
  deriving Inhabited

/-- What LP text shows of a model. -/
structure Reading where
  direction : Direction
  constant : Number
  terms : List (String × Number)
  rows : List RowReading
  /-- The bounds in effect of the variables that are not binary. -/
  bounds : List (String × Number × Number)
  integers : List String
  binaries : List String
  deriving Inhabited

namespace Model

/-- A row in normal form under the LP names of its instances. -/
def rowReading (m : Model) (c : Constraint) : Except Error RowReading := do
  let (linear, rhs) ← c.normalized
  let terms ← m.namedTerms linear
  pure { name := c.name, terms, relation := c.relation, rhs }

/-- The bounds in effect of a column under its LP name. -/
def boundReading (v : Variable) : String × Number × Number := (v.name, v.bounds.1, v.bounds.2)

/-- Objective, rows, bounds and kinds of a model in the order of declaration. -/
def reading (m : Model) : Except Error Reading := do
  let terms ← m.namedTerms m.goal.polynomial
  let rows ← m.constraints.mapM m.rowReading
  pure
    { direction := m.goal.direction
      constant := m.goal.polynomial.constant
      terms
      rows
      bounds := (m.columns.filter (·.kind != .binary)).map boundReading
      integers := LpText.namesOfKind m .integer
      binaries := LpText.namesOfKind m .binary }

end Model

theorem Polynomial.Whole.of_sub {p q r : Polynomial} (left : p.Whole) (right : q.Whole)
    (minus : p.sub q = .ok r) : r.Whole := by
  obtain ⟨terms, n, computed, exact, -⟩ := left.sub right
  cases minus.symm.trans computed
  exact whole_ofTerms n exact

namespace LpText

variable {body : List (List Char)}

/-! ## Reading lines -/

/-- The expression of an objective, after the label. -/
def readGoal (line : List Char) : Scan := (((words line).drop 2).foldl Scan.step {}).settle

def readRelation (word : List Char) : Relation :=
  if word = "<=".toList then .atMost else if word = ">=".toList then .atLeast else .equal

/-- A row: its name before a colon, and from the end a number, a relation and an expression. -/
def readRow (line : List Char) : RowReading :=
  match (words line).drop 1 with
  | label :: body =>
    match body.reverse with
    | rhs :: rel :: expression =>
      { name := String.ofList label.dropLast
        terms := (expression.reverse.foldl Scan.step {}).settle.terms
        relation := readRelation rel
        rhs := readNumber rhs }
    | _ => default
  | [] => default

/-- The bounds of a variable, in one of four forms. -/
def readBounds (line : List Char) : String × Number × Number :=
  match (words line).drop 1 with
  | [name, _] => (String.ofList name, .negInfinity, .infinity)
  | [name, rel, x] =>
    if rel = ['='] then (String.ofList name, readNumber x, readNumber x)
    else (String.ofList name, readNumber x, .infinity)
  | [lower, _, name, _, upper] => (String.ofList name, readNumber lower, readNumber upper)
  | _ => default

def readName (line : List Char) : String := String.ofList (line.drop 1)

/-! ## Reading a text -/

def indented (line : List Char) : Bool := line.head? == some ' '

/-- The lines under a header, if it comes next, and the lines after them. -/
def readSection (header : String) : List (List Char) → List (List Char) × List (List Char)
  | [] => ([], [])
  | line :: rest =>
    if line = header.toList then (rest.takeWhile indented, rest.dropWhile indented)
    else ([], line :: rest)

/-- What a text says about a model. -/
def read (text : String) : Reading :=
  match text.toList.splitOn '\n' with
  | direction :: goal :: rest =>
    let (rows, rest) := readSection "Subject To" rest
    let (bounds, rest) := readSection "Bounds" rest
    let (integers, rest) := readSection "General" rest
    let (binaries, _) := readSection "Binary" rest
    { direction := if direction = "Maximize".toList then .maximize else .minimize
      constant := .int (readGoal goal).constant
      terms := (readGoal goal).terms
      rows := rows.map readRow
      bounds := bounds.map readBounds
      integers := integers.map readName
      binaries := binaries.map readName }
  | _ => default

/-! ## Lines -/

variable {m : Model} (legible : m.Legible)

theorem solid_label {name : List Char} (isName : Name.IsName name) : Solid (name ++ [':']) := by
  have solid := solid_name isName
  exact ⟨by simp [solid.blank], by simp [solid.lineEnd]⟩

theorem readRelation_sign (rel : Relation) :
    readRelation (relationSign rel).toList = rel := by
  cases rel <;> decide

/-- A line of words that are known. -/
theorem words_line (text : String) (parts : List String)
    (joined : text.toList = (" ".intercalate parts).toList) (nonempty : parts ≠ [])
    (solid : ∀ part ∈ parts, Solid part.toList) :
    words (' ' :: text.toList) = [] :: parts.map String.toList := by
  rw [words_indent, joined, words_intercalate nonempty, flatMap_congr fun part mem =>
    (solid part mem).words, ← map_eq_flatMap]

/-- The bounds of a variable are read back, whichever of the four forms they take. -/
theorem readBounds_bounds {name text : String} {lower upper : Number}
    (isName : Name.IsName name.toList) (plainLower : lower.IsPlain) (plainUpper : upper.IsPlain)
    (shown : bounds {} name lower upper = .ok text) :
    readBounds (' ' :: text.toList) = (name, lower, upper) := by
  have solid := solid_name isName
  have infinite : Number.infinity.IsPlain := .inr (.inl ⟨false, rfl⟩)
  have negInfinite : Number.negInfinity.IsPlain := .inr (.inl ⟨true, rfl⟩)
  obtain ⟨parts, form, joined⟩ := boundWords_of_bounds shown
  have isWords := words_line text parts joined
  cases form with
  | free low high =>
    have word : Solid "free".toList := ⟨by decide, by decide⟩
    rw [plainLower.eq_of_equal negInfinite low, plainUpper.eq_of_equal infinite high, readBounds,
      isWords (by simp) (by simpa using ⟨solid, word⟩)]
    simp
  | fixed same written =>
    obtain ⟨isNumber, solidNumber⟩ := readNumber_number plainLower written
    have word : Solid "=".toList := ⟨by decide, by decide⟩
    rw [← plainLower.eq_of_equal plainUpper same, readBounds,
      isWords (by simp) (by simpa using ⟨solid, word, solidNumber⟩)]
    simp [isNumber]
  | above high written =>
    obtain ⟨isNumber, solidNumber⟩ := readNumber_number plainLower written
    have word : Solid ">=".toList := ⟨by decide, by decide⟩
    rw [plainUpper.eq_of_equal infinite high, readBounds,
      isWords (by simp) (by simpa using ⟨solid, word, solidNumber⟩)]
    simp [isNumber]
  | between written written' =>
    obtain ⟨isLow, solidLow⟩ := readNumber_number plainLower written
    obtain ⟨isHigh, solidHigh⟩ := readNumber_number plainUpper written'
    have word : Solid "<=".toList := ⟨by decide, by decide⟩
    rw [readBounds, isWords (by simp) (by simpa using ⟨solidLow, word, solid, word, solidHigh⟩)]
    simp [isLow, isHigh]

/-- The four parts of a row, from its words. -/
theorem readRow_of_words {line label rel rhs : List Char} {expression : List (List Char)}
    (isWords : words line = [] :: label :: (expression ++ [rel, rhs])) :
    readRow line = { name := String.ofList label.dropLast
                     terms := (expression.foldl Scan.step {}).settle.terms
                     relation := readRelation rel
                     rhs := readNumber rhs } := by
  rw [readRow, isWords]
  simp

/-! ## The objective -/

section Goal

variable {expression : String} {named : List (String × Number)}
  (scanned : ∀ r : Scan, r.Idle →
    ((words expression.toList).foldl Scan.step r).settle = r.append named)
include scanned

theorem readGoal_terms :
    readGoal (" obj: " ++ expression).toList = { terms := named } := by
  have chars : (" obj: " ++ expression).toList
      = ' ' :: ("obj:".toList ++ ' ' :: expression.toList) := by
    simp
  have label : Solid "obj:".toList := ⟨by decide, by decide⟩
  rw [chars, readGoal, words_indent, words_append, label.words]
  exact scanned {} ⟨rfl, rfl⟩

/-- A constant stands behind its sign, after the terms. -/
theorem readGoal_constant (n : Int) :
    readGoal (" obj: "
        ++ (expression ++ (if (Number.int n).less (.int 0) then " - " else " + ")
          ++ Decimal.digitText n.natAbs)).toList
      = { terms := named, constant := n, negative := decide (n < 0) } := by
  have sign : (if (Number.int n).less (.int 0) then " - " else " + ").toList
      = ' ' :: (Scan.signWord n ++ [' ']) := by
    simp only [Number.less_int, decide_eq_true_eq, Scan.signWord]
    split <;> rfl
  have chars : (" obj: "
        ++ (expression ++ (if (Number.int n).less (.int 0) then " - " else " + ")
          ++ Decimal.digitText n.natAbs)).toList
      = ' ' :: ("obj:".toList ++ ' ' :: (expression.toList
        ++ ' ' :: (Scan.signWord n ++ ' ' :: (Decimal.digitText n.natAbs).toList))) := by
    simp only [String.toList_append, sign]
    simp
  have label : Solid "obj:".toList := ⟨by decide, by decide⟩
  have signWord : Solid (Scan.signWord n) := by
    unfold Scan.signWord
    split <;> exact ⟨by decide, by decide⟩
  have digits := solid_digits n.natAbs
  rw [chars, readGoal, words_indent, words_append, words_append, words_append, label.words,
    signWord.words, digits.words]
  show (((words expression.toList ++ ([Scan.signWord n]
    ++ [(Decimal.digitText n.natAbs).toList])).foldl Scan.step {}).settle) = _
  rw [foldl_append, foldl_append, foldl_cons, foldl_nil, foldl_cons,
    foldl_nil, Scan.step_signWord, Scan.step_digits, scanned {} ⟨rfl, rfl⟩]
  simp only [Scan.settle, Scan.append, Scan.signed, decide_eq_true_eq, nil_append,
    Int.zero_add]
  congr
  split <;> omega

end Goal

section Lines

include legible

theorem readGoal_goalText {expression : String} (whole : m.goal.polynomial.Whole)
    (written : goalText {} m = .ok expression) :
    m.namedTerms m.goal.polynomial = .ok (readGoal (" obj: " ++ expression).toList).terms
      ∧ m.goal.polynomial.constant
        = .int (readGoal (" obj: " ++ expression).toList).constant := by
  obtain ⟨n, constant⟩ := whole.constant
  obtain ⟨shown, expressed, written⟩ := bind_eq_ok.mp written
  obtain ⟨named, isNamed, scanned⟩ := terms_words legible whole.terms expressed
  simp only [constant] at written ⊢
  split at written
  case isTrue =>
    obtain ⟨number, isNumber, done⟩ := bind_eq_ok.mp written
    cases done
    rw [number_natAbs isNumber, readGoal_constant scanned n]
    exact ⟨isNamed, rfl⟩
  case isFalse zero =>
    have none : n = 0 := by
      rw [Number.truthy, Number.isZero, Number.equal_of_toInt rfl rfl] at zero
      simpa using zero
    cases written
    rw [readGoal_terms scanned, none]
    exact ⟨isNamed, rfl⟩

theorem readRow_row {c : Constraint} {text : String} (name : Name.IsName c.name.toList)
    (whole : ∀ linear rhs, c.normalized = .ok (linear, rhs) →
      (∀ t ∈ linear.terms, ∃ n, t.2 = .int n) ∧ ∃ n, rhs = .int n)
    (shown : row {} m c = .ok text) :
    m.rowReading c = .ok (readRow text.toList) := by
  obtain ⟨⟨linear, rhs⟩, normalized, shown⟩ := bind_eq_ok.mp shown
  obtain ⟨expression, written, shown⟩ := bind_eq_ok.mp shown
  obtain ⟨number, isNumber, done⟩ := bind_eq_ok.mp shown
  cases done
  obtain ⟨wholeTerms, n, rfl⟩ := whole linear rhs normalized
  obtain ⟨named, isNamed, scanned⟩ := terms_words legible wholeTerms written
  obtain ⟨isRhs, solidRhs⟩ := readNumber_number (.inl ⟨n, rfl⟩) isNumber
  have label := solid_label name
  have chars : (" " ++ c.name ++ ": " ++ expression ++ " " ++ relationSign c.relation ++ " "
      ++ number).toList = ' ' :: ((c.name.toList ++ [':']) ++ ' ' :: (expression.toList
        ++ ' ' :: ((relationSign c.relation).toList ++ ' ' :: number.toList))) := by
    simp
  have isWords : words (' ' :: ((c.name.toList ++ [':']) ++ ' ' :: (expression.toList
        ++ ' ' :: ((relationSign c.relation).toList ++ ' ' :: number.toList))))
      = [] :: (c.name.toList ++ [':'])
        :: (words expression.toList ++ [(relationSign c.relation).toList, number.toList]) := by
    rw [words_indent, words_append, words_append, words_append, label.words,
      (solid_relationSign c.relation).words, solidRhs.words]
    rfl
  rw [chars, readRow_of_words isWords, Model.rowReading, normalized]
  show (m.namedTerms linear >>= _) = _
  rw [isNamed, scanned {} ⟨rfl, rfl⟩, readRelation_sign, isRhs, dropLast_concat,
    String.ofList_toList]
  rfl

end Lines

/-! ## Sections -/

/-- The first line is one of some headers, none of which is indented. -/
def Starts (headers : List String) (lines : List (List Char)) : Prop :=
  ∃ header ∈ headers, lines.head? = some header.toList ∧ indented header.toList = false

variable {title : String} {headers : List String} {rest : List (List Char)}

theorem readSection_present (each : ∀ line ∈ body, indented line = true)
    (starts : Starts headers rest) :
    readSection title (title.toList :: (body ++ rest)) = (body, rest) := by
  rw [readSection, if_pos rfl, takeWhile_append_of_pos each, dropWhile_append_of_pos each]
  obtain ⟨h, -, first, last⟩ := starts
  cases rest with
  | nil => simp
  | cons line =>
    obtain rfl := Option.some.inj first
    simp [last]

/-- A section is read back, also where it was left out. -/
theorem readSection_section (lines : List String) (starts : Starts headers rest)
    (other : title ∉ headers) :
    readSection title ((section_ title lines).map String.toList ++ rest)
      = (lines.map fun line => ' ' :: line.toList, rest) := by
  unfold section_
  split
  case isTrue empty =>
    obtain ⟨h, mem, first, -⟩ := starts
    obtain ⟨line, later, rfl⟩ := exists_cons_of_ne_nil (show rest ≠ [] by
      rintro rfl
      cases first)
    have different : line ≠ title.toList := by
      rintro rfl
      exact other (String.toList_inj.mp (Option.some.inj first) ▸ mem)
    rw [List.isEmpty_iff.mp empty]
    show readSection title (line :: later) = _
    rw [readSection, if_neg different]
    rfl
  case isFalse =>
    have body : ((title :: lines.map (" " ++ ·)).map String.toList ++ rest)
        = title.toList :: ((lines.map fun line => ' ' :: line.toList) ++ rest) := by
      simp
    rw [body]
    refine readSection_present (fun line inside => ?_) starts
    obtain ⟨text, -, rfl⟩ := mem_map.mp inside
    rfl

theorem starts_section (title : String) (lines : List String) (starts : Starts headers rest)
    (plain : indented title.toList = false) :
    Starts (title :: headers) ((section_ title lines).map String.toList ++ rest) := by
  unfold section_
  split
  · obtain ⟨h, mem, first, last⟩ := starts
    exact ⟨h, mem_cons_of_mem _ mem, first, last⟩
  · exact ⟨title, mem_cons_self, rfl, plain⟩

/-! ## Whole texts -/

/-- Texts that are each read back as what another computation gives. -/
theorem mapM_read {α β : Type} {f : α → Except Error String} (g : α → Except Error β)
    (read : String → β) {l : List α} {texts : List String}
    (each : ∀ a ∈ l, ∀ text, f a = .ok text → g a = .ok (read text))
    (shown : l.mapM f = .ok texts) : l.mapM g = .ok (texts.map read) := by
  have related := forall₂_of_mapM shown each
  clear each shown
  induction related with
  | nil => rfl
  | cons here _ ih =>
    rw [mapM_cons, here, ih]
    rfl

end LpText

/-- All coefficients and constants are integers, and so are the bounds that are finite. -/
structure Model.WholeData (m : Model) : Prop where
  rows : ∀ c ∈ m.constraints, c.lhs.Whole ∧ c.rhs.Whole
  objective : ∀ o ∈ m.objective.toList, o.polynomial.Whole
  bounds : ∀ v ∈ m.columns, ∀ x ∈ v.lower.toList ++ v.upper.toList, x.isFinite = true →
    ∃ n, x = .int n

instance (x : Number) : Decidable (∃ n, x = .int n) :=
  match x with
  | .int n => isTrue ⟨n, rfl⟩
  | .bool _ => isFalse (by simp)
  | .float _ => isFalse (by simp)

instance (p : Polynomial) : Decidable p.Whole :=
  decidable_of_iff ((∀ t ∈ p.terms, ∃ n, t.2 = .int n) ∧ ∃ n, p.constant = .int n)
    ⟨fun both => ⟨both.1, both.2⟩, fun whole => ⟨whole.terms, whole.constant⟩⟩

instance (m : Model) : Decidable m.WholeData :=
  decidable_of_iff ((∀ c ∈ m.constraints, c.lhs.Whole ∧ c.rhs.Whole)
      ∧ (∀ o ∈ m.objective.toList, o.polynomial.Whole)
      ∧ ∀ v ∈ m.columns, ∀ x ∈ v.lower.toList ++ v.upper.toList, x.isFinite = true →
        ∃ n, x = .int n)
    ⟨fun all => ⟨all.1, all.2.1, all.2.2⟩, fun whole => ⟨whole.rows, whole.objective, whole.bounds⟩⟩

namespace Model.WholeData

variable {m : Model} (whole : m.WholeData)
include whole

theorem goal : m.goal.polynomial.Whole := by
  unfold Model.goal
  cases isObjective : m.objective with
  | none => exact ⟨by simp [Polynomial.IntTerms, Polynomial.const], 0, rfl⟩
  | some o => exact whole.objective o (by simp [isObjective])

theorem normalized {c : Constraint} (mem : c ∈ m.constraints) {linear : Polynomial}
    {rhs : Number} (isNormal : c.normalized = .ok (linear, rhs)) :
    (∀ t ∈ linear.terms, ∃ n, t.2 = .int n) ∧ ∃ n, rhs = .int n := by
  obtain ⟨d, minus, done⟩ := bind_eq_ok.mp isNormal
  cases done
  have difference := (whole.rows c mem).1.of_sub (whole.rows c mem).2 minus
  obtain ⟨n, constant⟩ := difference.constant
  refine ⟨fun t inside => difference.terms t (mem_filter.mp inside).1, -n, ?_⟩
  rw [constant]
  rfl

theorem plain {v : Variable} (mem : v ∈ m.columns) (kind : v.kind ≠ .binary) :
    v.bounds.1.IsPlain ∧ v.bounds.2.IsPlain := by
  rw [v.bounds_of_ne_binary kind]
  constructor
  · cases lower : v.lower with
    | none => exact .inr (.inl ⟨true, rfl⟩)
    | some x => exact Number.isPlain_of_finite (whole.bounds v mem x (by simp [lower]))
  · cases upper : v.upper with
    | none => exact .inr (.inl ⟨false, rfl⟩)
    | some x => exact Number.isPlain_of_finite (whole.bounds v mem x (by simp [upper]))

end Model.WholeData

namespace LpText

variable {m : Model} {text : String}

/-- What is read from the lines of a model, once they are known. -/
theorem read_lines {expression : String} {rows limits : List String}
    (lines : text.toList.splitOn '\n' = (body m expression rows limits).map String.toList ++ [[]])
    (eachRow : ∀ line ∈ rows, indented line.toList = true) :
    read text
      = { direction := m.goal.direction
          constant := .int (readGoal (" obj: " ++ expression).toList).constant
          terms := (readGoal (" obj: " ++ expression).toList).terms
          rows := rows.map fun line => readRow line.toList
          bounds := limits.map fun line => readBounds (' ' :: line.toList)
          integers := namesOfKind m .integer
          binaries := namesOfKind m .binary } := by
  have last : Starts ["End"] ["End".toList, []] := ⟨"End", mem_cons_self, rfl, by decide⟩
  have third := starts_section "Binary" (namesOfKind m .binary) last (by decide)
  have second := starts_section "General" (namesOfKind m .integer) third (by decide)
  have first := starts_section "Bounds" limits second (by decide)
  have isRows : ∀ line ∈ rows.map String.toList, indented line = true := by
    intro line inside
    obtain ⟨text, mem, rfl⟩ := mem_map.mp inside
    exact eachRow text mem
  unfold read
  rw [lines]
  simp only [body, map_append, map_cons, map_nil, append_assoc,
    cons_append, nil_append]
  rw [readSection_present isRows first]
  dsimp only
  rw [readSection_section limits second (by decide)]
  dsimp only
  rw [readSection_section _ third (by decide)]
  dsimp only
  rw [readSection_section _ last (by decide)]
  have isDirection : (if (header m.goal.direction).toList = "Maximize".toList
      then Direction.maximize else Direction.minimize) = m.goal.direction := by
    cases m.goal.direction <;> decide
  have names : ∀ l : List String, (l.map fun line => ' ' :: line.toList).map readName = l := by
    intro l
    rw [map_map]
    exact (map_congr_left fun line _ => by simp [readName]).trans (map_id l)
  simp only [isDirection, names, map_map]
  rfl

/-- From the text of a model with whole data everything is read back that the text shows. -/
theorem read_render (legible : m.Legible) (named : ∀ c ∈ m.constraints, Name.IsName c.name.toList)
    (whole : m.WholeData) (unnamed : m.name.truthy = false) (shown : render {} m = .ok text) :
    m.reading = .ok (read text) := by
  obtain ⟨expression, rows, limits, shows⟩ := shows_of_render legible named shown
  obtain ⟨terms, constant⟩ := readGoal_goalText legible whole.goal shows.goal
  have readRows := mapM_read m.rowReading (fun line => readRow line.toList)
    (fun c mem text shown =>
      readRow_row legible (named c mem) (fun linear rhs => whole.normalized mem) shown)
    shows.eachRow
  have readLimits := mapM_read (fun v => pure (Model.boundReading v))
    (fun line => readBounds (' ' :: line.toList))
    (fun v mem text shown => by
      obtain ⟨known, kind⟩ := mem_filter.mp mem
      obtain ⟨lower, upper⟩ := whole.plain known (by simpa using kind)
      rw [readBounds_bounds (legible v known).1 lower upper shown]
      rfl) shows.eachLimit
  rw [mapM_pure] at readLimits
  have indentedRows : ∀ line ∈ rows, indented line.toList = true := by
    intro line inside
    obtain ⟨c, mem, shown⟩ := exists_of_mem_mapM shows.eachRow inside
    obtain ⟨rest, front⟩ := (row_ok legible (solid_name (named c mem)).lineEnd shown).1
    rw [← front]
    simp [indented]
  have lines := shows.lines
  rw [titleLines, if_neg (by simp [unnamed]), nil_append] at lines
  rw [read_lines lines indentedRows, Model.reading, terms, readRows, constant,
    Except.ok.inj readLimits]
  rfl

end LpText

open Compilation

/-- **The text determines the model.** Two models that statements built, without a name and over
whole data, and that have one LP text agree in objective, rows in normal form, bounds and kinds,
under LP names and in order; and `LpText.read` gives all of this back from the text. -/
theorem text_determines_model {s s' : Store} (session : Session {} s) (session' : Session {} s')
    (unnamed : s.model.name.truthy = false) (unnamed' : s'.model.name.truthy = false)
    (whole : s.model.WholeData) (whole' : s'.model.WholeData) {text : String}
    (shown : LpText.render {} s.model = .ok text) (shown' : LpText.render {} s'.model = .ok text) :
    s.model.reading = .ok (LpText.read text) ∧ s'.model.reading = s.model.reading := by
  have recovers : ∀ {s : Store}, Session {} s → s.model.name.truthy = false → s.model.WholeData →
      LpText.render {} s.model = .ok text → s.model.reading = .ok (LpText.read text) := by
    intro s session unnamed whole shown
    have registered := session.sound.1.registered
    refine LpText.read_render registered.legible (fun c member => ?_) whole unnamed shown
    rw [registered.row_name_default member]
    exact Name.isName_sanitize _ c.rawName
  have first := recovers session unnamed whole shown
  exact ⟨first, (recovers session' unnamed' whole' shown').trans first.symm⟩

def capStore (left : Expr) (cap : Int) : Store :=
  (define {} {} .none
    [.variableFamily (.str "stock") [] (.str "integer") (.data (.int (-3))) (.data (.int 3)) .none,
      .constraintFamily .le left (.literal (.int cap)) [] .none]).2

theorem capStore_session (left : Expr) (cap : Int) : Session {} (capStore left cap) :=
  (Session.start .none).block _ _ _

/-- Two rows that differ by a constant on both sides have one text. -/
theorem cap_text_determines_model :
    let stock : Expr := .ref (.str "stock") []
    let shifted : Expr := .arith .add stock (.literal (.int 1))
    let text := "Minimize\n obj: 0\nSubject To\n c00000000: stock <= 2\nBounds\n "
      ++ "-3 <= stock <= 3\nGeneral\n stock\nEnd\n"
    (capStore stock 2).model.reading = .ok (LpText.read text)
      ∧ (capStore shifted 3).model.reading = (capStore stock 2).model.reading := by
  intro stock shifted text
  exact text_determines_model (capStore_session stock 2) (capStore_session shifted 3)
    (by decide +kernel) (by decide +kernel) (by decide +kernel) (by decide +kernel)
    (ok_of_toOption (by decide +kernel)) (ok_of_toOption (by decide +kernel))

end LinearProgram
