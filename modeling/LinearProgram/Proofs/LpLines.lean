import LinearProgram.Proofs.LpWords
import LinearProgram.Proofs.References

/-!
# The lines of LP text

A line end in a family, an index, a label or a description never reaches LP text. So every line that
`LpText.lines` lists is one line of the text (`LpText.shows_of_render`), the title excepted.
`LpText.Outline` says what stands below a title.
-/

namespace LinearProgram

open List

variable {text title : String} {m : Model} {lines parts : List String}

/-- A text that stays on one line. -/
def OneLine (text : String) : Prop := '\n' ∉ text.toList

instance (text : String) : Decidable (OneLine text) := inferInstanceAs (Decidable ('\n' ∉ _))

@[simp] theorem oneLine_append {a b : String} : OneLine (a ++ b) ↔ OneLine a ∧ OneLine b := by
  simp [OneLine]

@[simp] theorem oneLine_ofList {chars : List Char} :
    OneLine (String.ofList chars) ↔ '\n' ∉ chars := by
  simp [OneLine]

/-! ## Numbers -/

theorem oneLine_digitText (n : Nat) : OneLine (Decimal.digitText n) :=
  (LpText.solid_digits n).lineEnd

theorem lineEnd_toDigits (n : Nat) : '\n' ∉ Nat.toDigits 10 n := by
  rw [← Decimal.toList_digitText]
  exact oneLine_digitText n

namespace FloatLayout

theorem oneLine_zeros (n : Nat) : OneLine (zeros n) := by
  simp [zeros]

theorem oneLine_exponentText (width : Nat) (e : Int) : OneLine (exponentText width "e" e) := by
  have sign : OneLine (if e < 0 then "-" else "+") := by
    split <;> decide
  simp only [exponentText, oneLine_append]
  exact ⟨⟨⟨by decide, sign⟩, oneLine_zeros _⟩, oneLine_digitText _⟩

theorem oneLine_writeDecimal (layout : FloatLayout) (d : Decimal) :
    OneLine (layout.writeDecimal d) := by
  have digits := lineEnd_toDigits d.digits
  have taken : ∀ n, '\n' ∉ (Nat.toDigits 10 d.digits).take n :=
    fun n inside => digits (mem_of_mem_take inside)
  have dropped : ∀ n, '\n' ∉ (Nat.toDigits 10 d.digits).drop n :=
    fun n inside => digits (mem_of_mem_drop inside)
  have point : OneLine "." := by decide
  unfold writeDecimal
  dsimp only
  split
  · split
    · simp only [oneLine_append, oneLine_ofList]
      exact ⟨⟨by decide, oneLine_zeros _⟩, digits⟩
    · split
      · simp only [oneLine_append, oneLine_ofList]
        exact ⟨⟨digits, oneLine_zeros _⟩, by decide⟩
      · simp only [oneLine_append, oneLine_ofList]
        exact ⟨⟨taken _, point⟩, dropped _⟩
  · have fraction : OneLine (if ((Nat.toDigits 10 d.digits).drop 1).isEmpty then ""
        else "." ++ String.ofList ((Nat.toDigits 10 d.digits).drop 1)) := by
      split
      · decide
      · simp only [oneLine_append, oneLine_ofList]
        exact ⟨point, dropped 1⟩
    simp only [oneLine_append, oneLine_ofList]
    exact ⟨⟨taken 1, fraction⟩, oneLine_exponentText _ _⟩

theorem oneLine_write (x : Float) : OneLine (standard.write x) := by
  have sign : ∀ negative : Bool, OneLine (if negative then "-" else "") := by decide
  unfold write
  split
  · decide
  · simp only [oneLine_append]
    exact ⟨sign _, by decide⟩
  · simp only [oneLine_append]
    exact ⟨sign _, oneLine_writeDecimal _ _⟩

end FloatLayout

theorem Model.Registered.legible (registered : m.Registered {}) : m.Legible := by
  intro v mem
  rw [registered.name_default mem]
  exact ⟨Name.isName_ofKey _ v.key, Name.ofKey_ne_empty (by decide) v.key⟩

namespace LpText

theorem oneLine_number {x : Number} (shown : number {} x = .ok text) : OneLine text := by
  unfold number at shown
  split at shown
  · cases shown
    decide
  · split at shown
    · cases shown
      decide
    · obtain ⟨f, -, shown⟩ := bind_eq_ok.mp shown
      split at shown
      · cases shown
        exact (solid_int _).lineEnd
      · cases shown
        exact FloatLayout.oneLine_write f

/-! ## Lines of a model -/

theorem words_indent (line : List Char) : words (' ' :: line) = [] :: words line :=
  words_append [] line

theorem oneLine_intercalate (clean : ∀ part ∈ parts, OneLine part) :
    OneLine (" ".intercalate parts) := by
  rw [OneLine, String.toList_intercalate]
  induction parts with
  | nil => exact not_mem_nil
  | cons _ rest ih =>
    rw [forall_mem_cons] at clean
    cases rest with
    | nil => simpa [OneLine] using clean.1
    | cons =>
      rw [map_cons, map_cons, intercalate_cons_cons]
      rw [mem_append, mem_append, not_or, not_or]
      exact ⟨⟨clean.1, by decide⟩, ih clean.2⟩

theorem objectiveLines_eq (m : Model) : objectiveLines {} m
    = (do pure [header m.goal.direction, " obj: " ++ (← goalText {} m)] : Except Error _) := rfl

theorem solid_relationSign (rel : Relation) : Solid (relationSign rel).toList := by
  cases rel <;> exact ⟨by decide, by decide⟩

section Lines

variable {m : Model} (legible : m.Legible)
include legible

theorem oneLine_name {v : Variable} (mem : v ∈ m.columns) : OneLine v.name :=
  (solid_name (legible v mem).1).lineEnd

theorem oneLine_term {key : VarKey} {coefficient : Number}
    (shown : term {} m key coefficient = .ok text) : OneLine text := by
  unfold term at shown
  split at shown
  · exact absurd shown (breakDown_ne_ok _ _)
  case h_2 v declared =>
    have name := oneLine_name legible (mem_of_find?_eq_some declared)
    split at shown
    · cases shown
      exact name
    · obtain ⟨number, written, done⟩ := bind_eq_ok.mp shown
      cases done
      simp only [oneLine_append]
      exact ⟨⟨oneLine_number written, by decide⟩, name⟩

theorem oneLine_laterTerms {l : List (VarKey × Number)} (shown : laterTerms {} m l = .ok parts) :
    ∀ part ∈ parts, OneLine part := by
  induction l generalizing parts with
  | nil =>
    cases shown
    simp
  | cons t _ ih =>
    obtain ⟨text, written, shown⟩ := bind_eq_ok.mp shown
    obtain ⟨others, later, done⟩ := bind_eq_ok.mp shown
    cases done
    have sign : OneLine (if t.2.less (.int 0) then "- " else "+ ") := by
      split <;> decide
    rw [forall_mem_cons, oneLine_append]
    exact ⟨⟨sign, oneLine_term legible written⟩, ih later⟩

theorem oneLine_terms {p : Polynomial} (shown : terms {} m p = .ok text) : OneLine text := by
  unfold terms at shown
  split at shown
  · cases shown
    decide
  · obtain ⟨head, written, shown⟩ := bind_eq_ok.mp shown
    obtain ⟨others, later, done⟩ := bind_eq_ok.mp shown
    cases done
    have first := oneLine_term legible written
    refine oneLine_intercalate (forall_mem_cons.mpr ⟨?_, oneLine_laterTerms legible later⟩)
    split
    · exact oneLine_append.mpr ⟨by decide, first⟩
    · exact first

theorem oneLine_goalText (written : goalText {} m = .ok text) : OneLine text := by
  obtain ⟨expression, expressed, written⟩ := bind_eq_ok.mp written
  have clean := oneLine_terms legible expressed
  dsimp only at written
  split at written
  · obtain ⟨number, isNumber, done⟩ := bind_eq_ok.mp written
    cases done
    have sign : OneLine (if m.goal.polynomial.constant.less (.int 0) then " - " else " + ") := by
      split <;> decide
    simp only [oneLine_append]
    exact ⟨⟨clean, sign⟩, oneLine_number isNumber⟩
  · cases written
    exact clean

theorem row_ok {c : Constraint} (name : OneLine c.name) (shown : row {} m c = .ok text) :
    (" " ++ c.name ++ ": ").toList <+: text.toList ∧ OneLine text := by
  obtain ⟨⟨linear, rhs⟩, -, shown⟩ := bind_eq_ok.mp shown
  obtain ⟨expression, written, shown⟩ := bind_eq_ok.mp shown
  obtain ⟨number, isNumber, done⟩ := bind_eq_ok.mp shown
  cases done
  constructor
  · exact ⟨(expression ++ " " ++ relationSign c.relation ++ " " ++ number).toList, by simp⟩
  · simp only [oneLine_append]
    exact ⟨⟨⟨⟨⟨⟨⟨by decide, name⟩, by decide⟩, oneLine_terms legible written⟩, by decide⟩,
      (solid_relationSign c.relation).lineEnd⟩, by decide⟩, oneLine_number isNumber⟩

end Lines

/-- The words of the bounds of a variable, which take one of four forms. -/
inductive BoundWords (name : String) (lower upper : Number) : List String → Prop
  | free (low : lower.equal .negInfinity = true) (high : upper.equal .infinity = true) :
    BoundWords name lower upper [name, "free"]
  | fixed {x : String} (same : lower.equal upper = true) (written : number {} lower = .ok x) :
    BoundWords name lower upper [name, "=", x]
  | above {x : String} (high : upper.equal .infinity = true) (written : number {} lower = .ok x) :
    BoundWords name lower upper [name, ">=", x]
  | between {x y : String} (written : number {} lower = .ok x)
      (written' : number {} upper = .ok y) :
    BoundWords name lower upper [x, "<=", name, "<=", y]

section Bounds

variable {name : String} {lower upper : Number}

theorem boundWords_of_bounds (shown : bounds {} name lower upper = .ok text) :
    ∃ parts, BoundWords name lower upper parts
      ∧ text.toList = (" ".intercalate parts).toList := by
  unfold bounds at shown
  split at shown
  case isTrue free =>
    rw [Bool.and_eq_true] at free
    cases shown
    exact ⟨_, .free free.1 free.2, by simp⟩
  case isFalse =>
    split at shown
    case isTrue same =>
      obtain ⟨x, written, ⟨⟩⟩ := bind_eq_ok.mp shown
      exact ⟨_, .fixed same written, by simp⟩
    case isFalse =>
      split at shown
      case isTrue high =>
        obtain ⟨x, written, ⟨⟩⟩ := bind_eq_ok.mp shown
        exact ⟨_, .above high written, by simp⟩
      case isFalse =>
        obtain ⟨x, written, shown⟩ := bind_eq_ok.mp shown
        obtain ⟨y, written', ⟨⟩⟩ := bind_eq_ok.mp shown
        exact ⟨_, .between written written', by simp⟩

/-- The bounds of a variable hold its name as a word. -/
theorem bounds_ok (isName : Name.IsName name.toList)
    (shown : bounds {} name lower upper = .ok text) :
    name.toList ∈ words text.toList ∧ OneLine text := by
  have solid := solid_name isName
  obtain ⟨parts, form, joined⟩ := boundWords_of_bounds shown
  have inside : name ∈ parts := by cases form <;> simp
  have clean : ∀ part ∈ parts, OneLine part := by
    have marks : OneLine "free" ∧ OneLine "=" ∧ OneLine ">=" ∧ OneLine "<=" := by decide
    have clean : OneLine name := solid.lineEnd
    cases form with
    | free => simp [clean, marks]
    | fixed _ written | above _ written => simp [clean, marks, oneLine_number written]
    | between written written' =>
      simp [clean, marks, oneLine_number written, oneLine_number written']
  rw [OneLine, joined, words_intercalate (ne_nil_of_mem inside)]
  refine ⟨mem_flatMap.mpr ⟨name, inside, ?_⟩, oneLine_intercalate clean⟩
  rw [solid.words]
  exact mem_cons_self

end Bounds

/-! ## Whole texts -/

theorem clean_section (header : OneLine title) (clean : ∀ line ∈ lines, OneLine line) :
    ∀ line ∈ section_ title lines, OneLine line := by
  unfold section_
  split
  · simp
  · intro line inside
    rcases mem_cons.mp inside with rfl | mem
    · exact header
    · obtain ⟨text, known, rfl⟩ := mem_map.mp mem
      exact oneLine_append.mpr ⟨by decide, clean text known⟩

theorem splitOn_lines (nonempty : lines ≠ []) (clean : ∀ line ∈ lines, OneLine line) :
    ("\n".intercalate lines ++ "\n").toList.splitOn '\n' = lines.map String.toList ++ [[]] := by
  rw [String.toList_append, String.toList_intercalate]
  have split : (['\n'].intercalate (lines.map String.toList)).splitOn '\n'
      = lines.map String.toList := by
    refine splitOn_intercalate '\n' (fun line inside => ?_) (by simpa using nonempty)
    obtain ⟨text, mem, rfl⟩ := mem_map.mp inside
    exact clean text mem
  exact (splitOnP_append_cons _ [] (by decide)).trans (congrArg (· ++ [[]]) split)

theorem splitOn_titled (nonempty : lines ≠ []) (clean : ∀ line ∈ lines, OneLine line) :
    ("\n".intercalate (title :: lines) ++ "\n").toList.splitOn '\n'
      = title.toList.splitOn '\n' ++ (lines.map String.toList ++ [[]]) := by
  rw [← splitOn_lines nonempty clean]
  obtain ⟨first, rest, rfl⟩ := exists_cons_of_ne_nil nonempty
  have split : ("\n".intercalate (title :: first :: rest) ++ "\n").toList
      = title.toList ++ '\n' :: ("\n".intercalate (first :: rest) ++ "\n").toList := by
    simp [String.intercalate_cons_cons]
  rw [split]
  exact splitOnP_append_cons _ _ (by decide)

/-- The lines of the title, which shows the name as it is. -/
def titleLines (m : Model) : List (List Char) :=
  if m.name.truthy then ("\\ Model " ++ m.name.text).toList.splitOn '\n' else []

/-- The lines below the title. -/
def body (m : Model) (expression : String) (rows limits : List String) : List String :=
  [header m.goal.direction, " obj: " ++ expression] ++ ["Subject To"] ++ rows
    ++ section_ "Bounds" limits ++ section_ "General" (namesOfKind m .integer)
    ++ section_ "Binary" (namesOfKind m .binary) ++ ["End"]

/-- What the text of a model is put together from. -/
structure Shows (m : Model) (text expression : String) (rows limits : List String) : Prop where
  goal : goalText {} m = .ok expression
  eachRow : m.constraints.mapM (row {} m) = .ok rows
  eachLimit : (m.columns.filter (·.kind != .binary)).mapM
    (fun v => bounds {} v.name v.bounds.1 v.bounds.2) = .ok limits
  lines : text.toList.splitOn '\n'
    = titleLines m ++ ((body m expression rows limits).map String.toList ++ [[]])

/-- Every line of a model but the title is one line of its text. -/
theorem shows_of_render (legible : m.Legible)
    (named : ∀ c ∈ m.constraints, Name.IsName c.name.toList) (shown : render {} m = .ok text) :
    ∃ expression rows limits, Shows m text expression rows limits := by
  obtain ⟨all, written, done⟩ := bind_eq_ok.mp shown
  cases done
  obtain ⟨goalLines, goalWritten, written⟩ := bind_eq_ok.mp written
  obtain ⟨rows, rowsWritten, written⟩ := bind_eq_ok.mp written
  obtain ⟨limits, limitsWritten, done⟩ := bind_eq_ok.mp written
  rw [objectiveLines_eq] at goalWritten
  obtain ⟨expression, goal, ⟨⟩⟩ := bind_eq_ok.mp goalWritten
  refine ⟨expression, rows, limits, goal, rowsWritten, limitsWritten, ?_⟩
  have cleanRows : ∀ line ∈ rows, OneLine line := by
    intro line inside
    obtain ⟨c, mem, shown⟩ := exists_of_mem_mapM rowsWritten inside
    exact (row_ok legible (solid_name (named c mem)).lineEnd shown).2
  have cleanLimits : ∀ line ∈ limits, OneLine line := by
    intro line inside
    obtain ⟨v, mem, shown⟩ := exists_of_mem_mapM limitsWritten inside
    exact (bounds_ok (legible v (mem_filter.mp mem).1).1 shown).2
  have cleanNames : ∀ kind, ∀ name ∈ namesOfKind m kind, OneLine name := by
    intro kind name inside
    obtain ⟨v, mem, rfl⟩ := mem_map.mp inside
    exact oneLine_name legible (mem_filter.mp mem).1
  have cleanHeader : OneLine (header m.goal.direction) := by
    cases m.goal.direction <;> decide
  have cleanGoal : OneLine (" obj: " ++ expression) :=
    oneLine_append.mpr ⟨by decide, oneLine_goalText legible goal⟩
  have clean : ∀ line ∈ body m expression rows limits, OneLine line := by
    simp only [body, forall_mem_append, forall_mem_cons]
    exact ⟨⟨⟨⟨⟨⟨⟨cleanHeader, cleanGoal, by simp⟩, by decide, by simp⟩, cleanRows⟩,
      clean_section (by decide) cleanLimits⟩, clean_section (by decide) (cleanNames _)⟩,
      clean_section (by decide) (cleanNames _)⟩, by decide, by simp⟩
  have isAll : all = (if m.name.truthy then ["\\ Model " ++ m.name.text] else [])
      ++ body m expression rows limits := by
    cases done
    simp [body]
  rw [isAll, titleLines]
  split
  · exact splitOn_titled (by simp [body]) clean
  · exact splitOn_lines (by simp [body]) clean

/-! ## The outline of a text -/

/-- Lines under a header, which stands there only if there are any. -/
def under (header : String) (lines : List (List Char)) : List (List Char) :=
  if lines = [] then [] else header.toList :: lines

/-- A line for each variable of a kind. -/
def listing (m : Model) (kind : VariableKind) : List (List Char) :=
  (m.columns.filter (·.kind == kind)).map fun v => ' ' :: v.name.toList

/-- What stands in the lines of LP text below the lines of a title: one line for the direction and
one for the objective, one for each row, which starts with its name, one for the bounds of each
variable that is not binary, and one for each integer and each binary variable. -/
inductive Outline (m : Model) (title : List (List Char)) : List (List Char) → Prop
  | intro (goal : List Char) (rows limits : List (List Char)) (label : " obj: ".toList <+: goal)
      (eachRow : Forall₂ (fun c row => (" " ++ c.name ++ ": ").toList <+: row)
        m.constraints rows)
      (eachLimit : Forall₂ (fun v limit => v.name.toList ∈ words limit)
        (m.columns.filter (·.kind != .binary)) limits) :
      Outline m title (title ++ [(header m.goal.direction).toList, goal, "Subject To".toList]
        ++ rows ++ under "Bounds" limits ++ under "General" (listing m .integer)
        ++ under "Binary" (listing m .binary) ++ ["End".toList, []])

/-- The title is a single comment line, or nothing if the model has no name. -/
def Laid (m : Model) (lines : List (List Char)) : Prop :=
  if m.name.truthy then ∃ comment, Outline m ['\\' :: comment] lines else Outline m [] lines

/-- The number of lines under a header, with the header. -/
def extent (count : Nat) : Nat := if count = 0 then 0 else count + 1

theorem length_under (header : String) (lines : List (List Char)) :
    (under header lines).length = extent lines.length := by
  unfold under extent
  cases lines <;> simp

/-- The number of lines below a title. -/
def height (m : Model) : Nat :=
  3 + m.constraints.length + extent (m.columns.filter (·.kind != .binary)).length
    + extent (m.columns.filter (·.kind == .integer)).length
    + extent (m.columns.filter (·.kind == .binary)).length + 2

theorem Outline.length {title lines : List (List Char)} (outline : Outline m title lines) :
    lines.length = title.length + height m := by
  obtain ⟨goal, rows, limits, -, eachRow, eachLimit⟩ := outline
  have sameRows := eachRow.length_eq
  have sameLimits := eachLimit.length_eq
  simp only [length_append, length_under, listing, length_map, ← sameRows, ← sameLimits,
    height, length_cons, length_nil]
  omega

theorem two_le_length_splitOn {chars : List Char} (inside : '\n' ∈ chars) :
    2 ≤ (chars.splitOn '\n').length := by
  obtain ⟨front, rest, rfl⟩ := append_of_mem inside
  have split : (front ++ '\n' :: rest).splitOn '\n' = front.splitOn '\n' ++ rest.splitOn '\n' :=
    splitOnP_append_cons front rest (by decide)
  have first := length_pos_iff.mpr (splitOnP_ne_nil (· == '\n') front)
  have second := length_pos_iff.mpr (splitOnP_ne_nil (· == '\n') rest)
  rw [split, length_append]
  exact Nat.add_le_add first second

theorem splitOn_of_oneLine (clean : OneLine text) : text.toList.splitOn '\n' = [text.toList] := by
  have split := splitOn_intercalate '\n' (by simpa [OneLine] using clean)
    (cons_ne_nil text.toList [])
  rwa [intercalate_singleton] at split

/-- A text with the lines of its own title has the single comment line exactly if the name has one
line. -/
theorem Outline.laid_iff {lines : List (List Char)} (outline : Outline m (titleLines m) lines) :
    Laid m lines ↔ (m.name.truthy = true → OneLine m.name.text) := by
  unfold Laid titleLines at *
  cases named : m.name.truthy with
  | false => simpa [named] using outline
  | true =>
    rw [named, if_pos rfl] at outline
    simp only [if_true, true_implies]
    constructor
    · rintro ⟨comment, laid⟩
      have same := laid.length.symm.trans outline.length
      by_contra broken
      have inside : '\n' ∈ ("\\ Model " ++ m.name.text).toList := by
        rw [String.toList_append]
        exact mem_append_right _ (not_not.mp broken)
      have long := two_le_length_splitOn inside
      rw [length_singleton] at same
      omega
    · intro clean
      rw [splitOn_of_oneLine (oneLine_append.mpr ⟨by decide, clean⟩)] at outline
      exact ⟨_, by simpa using outline⟩

/-! ## Texts of models -/

theorem map_section (title : String) (lines : List String) :
    (section_ title lines).map String.toList
      = under title (lines.map fun line => ' ' :: line.toList) := by
  unfold section_ under
  cases lines <;> simp

theorem Shows.outline {expression : String} {rows limits : List String}
    (legible : m.Legible) (named : ∀ c ∈ m.constraints, Name.IsName c.name.toList)
    (shows : Shows m text expression rows limits) :
    Outline m (titleLines m) (text.toList.splitOn '\n') := by
  have eachRow := forall₂_of_mapM shows.eachRow fun c mem text shown =>
    (row_ok legible (solid_name (named c mem)).lineEnd shown).1
  have eachLimit := forall₂_of_mapM shows.eachLimit fun v mem text shown =>
    (bounds_ok (legible v (mem_filter.mp mem).1).1 shown).1
  have outline : Outline m (titleLines m) _ := .intro (" obj: " ++ expression).toList
    (rows.map String.toList) (limits.map fun limit => ' ' :: limit.toList)
    (by rw [String.toList_append]; exact prefix_append _ _)
    (forall₂_map_right_iff.mpr eachRow)
    (forall₂_map_right_iff.mpr (eachLimit.imp fun v limit word => by
      rw [words_indent]
      exact mem_cons_of_mem _ word))
  rw [shows.lines]
  convert outline using 1
  simp [body, map_section, listing, namesOfKind, Function.comp_def]

open Compilation

/-- **Only the title breaks lines.** Whatever texts a model was built from, the lines of its LP text
are the lines of its title and then exactly those of the outline. The title is the one comment line
it should be, or left out, if and only if the name of the model, if there is one, holds no line
end. -/
theorem only_title_breaks_lines {s : Store} (session : Session {} s) {text : String}
    (shown : render {} s.model = .ok text) :
    Outline s.model (titleLines s.model) (text.toList.splitOn '\n')
      ∧ (Laid s.model (text.toList.splitOn '\n')
        ↔ (s.model.name.truthy = true → OneLine s.model.name.text)) := by
  have registered := session.sound.1.registered
  have named : ∀ c ∈ s.model.constraints, Name.IsName c.name.toList := by
    intro c member
    rw [registered.row_name_default member]
    exact Name.isName_sanitize _ c.rawName
  obtain ⟨expression, rows, limits, shows⟩ := shows_of_render registered.legible named shown
  have outline := shows.outline registered.legible named
  exact ⟨outline, outline.laid_iff⟩

def brokenTexts (name : Value) : Store :=
  (define {} {} name
    [.variableFamily (.str "stock\nEnd") [.generator "day" (.data (.list [.str "a\nb"]))]
        (.str "integer") (.data (.int 0)) (.data (.int 3)) .none,
      .constraintFamily .le (.ref (.str "stock\nEnd") [.literal (.str "a\nb")]) (.literal (.int 2))
        [] .none]).2

theorem brokenTexts_session (name : Value) : Session {} (brokenTexts name) :=
  (Session.start name).block _ _ _

def brokenTitle : String :=
  "\\ Model plan\nEnd\nMinimize\n obj: 0\nSubject To\n c00000000: stock_End(a_b) <= 2\nBounds\n"
    ++ " 0 <= stock_End(a_b) <= 3\nGeneral\n stock_End(a_b)\nEnd\n"

theorem render_brokenTexts :
    render {} (brokenTexts (.str "plan\nEnd")).model = .ok brokenTitle :=
  ok_of_toOption (by decide +kernel)

/-- Of three texts with line ends only the name of the model adds a line. -/
theorem brokenTexts_break_title :
    render {} (brokenTexts (.str "plan\nEnd")).model = .ok brokenTitle
      ∧ Outline (brokenTexts (.str "plan\nEnd")).model ["\\ Model plan".toList, "End".toList]
        (brokenTitle.toList.splitOn '\n') := by
  have title : titleLines (brokenTexts (.str "plan\nEnd")).model
      = ["\\ Model plan".toList, "End".toList] := by
    decide +kernel
  have outline := (only_title_breaks_lines (brokenTexts_session (.str "plan\nEnd"))
    render_brokenTexts).1
  rw [title] at outline
  exact ⟨render_brokenTexts, outline⟩

/-- A line end in the name of a model puts a further line, here an end mark, into its LP text. -/
theorem title_adds_line :
    Session {} (brokenTexts (.str "plan\nEnd"))
      ∧ render {} (brokenTexts (.str "plan\nEnd")).model = .ok brokenTitle
      ∧ ¬ Laid (brokenTexts (.str "plan\nEnd")).model (brokenTitle.toList.splitOn '\n') := by
  refine ⟨brokenTexts_session _, render_brokenTexts, fun laid => ?_⟩
  have named : (brokenTexts (.str "plan\nEnd")).model.name.truthy = true := by decide +kernel
  rw [Laid, if_pos named] at laid
  obtain ⟨comment, outline⟩ := laid
  have tooMany : (brokenTitle.toList.splitOn '\n').length
      ≠ 1 + height (brokenTexts (.str "plan\nEnd")).model := by
    decide +kernel
  exact tooMany outline.length

end LpText

end LinearProgram
