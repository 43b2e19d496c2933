import LinearProgram.Config
import LinearProgram.Proofs.Names

/-!
# The names of auxiliary variables and rows

Each use of an operator has a number (`Use`). Its variables are the result, selectors and portions
(`Part`), its rows are told apart by tags (`Tag`). Names say what they were made from
(`Use.key_inj`, `Use.rowName_inj`).
-/

namespace LinearProgram

open List

/-- The operators that auxiliary variables stand for. -/
inductive Operator where
  | absolute | maximum | minimum | conjunction | disjunction | choice | piecewise
  deriving DecidableEq

namespace Operator

def word : Operator → String
  | absolute => "abs"
  | maximum => "max"
  | minimum => "min"
  | conjunction => "and"
  | disjunction => "or"
  | choice => "if"
  | piecewise => "pwl"

def all : List Operator :=
  [absolute, maximum, minimum, conjunction, disjunction, choice, piecewise]

theorem mem_all (o : Operator) : o ∈ all := by
  cases o <;> decide

end Operator

/-- The auxiliary variables of one use: its result, and numbered selectors and portions. -/
inductive Part where
  | whole
  | selector (k : Nat)
  | portion (k : Nat)
  deriving DecidableEq

namespace Part

def suffix : Part → String
  | whole => ""
  | selector _ => "_sel"
  | portion _ => "_seg"

def suffixes : List String := ["", "_sel", "_seg"]

theorem suffix_mem (part : Part) : part.suffix ∈ suffixes := by
  cases part with
  | whole => exact mem_cons_self
  | selector => exact mem_cons_of_mem _ mem_cons_self
  | portion => exact mem_cons_of_mem _ (mem_cons_of_mem _ mem_cons_self)

end Part

/-- What tells the rows of a use apart: a word and maybe a number. The word holds no digit, so the
two can be read off the text. -/
structure Tag where
  word : String
  number : Option Nat
  proper : word.toList.all (fun c => Name.isLegal c && !c.isDigit) = true := by decide

namespace Tag

variable {t : Tag}

theorem proper_of_mem {c : Char} (mem : c ∈ t.word.toList) :
    Name.isLegal c = true ∧ c.isDigit = false := by
  have proper := all_eq_true.mp t.proper c mem
  rwa [Bool.and_eq_true, Bool.not_eq_true'] at proper

def text (t : Tag) : String :=
  match t.number with
  | none => t.word
  | some k => t.word ++ toString k

theorem text_chars (t : Tag) :
    ∃ digits, t.text.toList = t.word.toList ++ digits ∧ (∀ c ∈ digits, c.isDigit = true)
      ∧ digits = (t.number.map fun k => (Decimal.digitText k).toList).getD [] := by
  obtain ⟨word, number, -⟩ := t
  cases number with
  | none => exact ⟨[], (append_nil _).symm, by simp, rfl⟩
  | some k =>
    refine ⟨(Decimal.digitText k).toList, ?_, fun c => Decimal.isDigit_of_mem, rfl⟩
    show (word ++ toString k).toList = _
    rw [Decimal.toString_eq_digitText, String.toList_append]

theorem isLegal_of_mem_text {c : Char} (mem : c ∈ t.text.toList) : Name.isLegal c = true := by
  obtain ⟨digits, chars, isDigits, -⟩ := t.text_chars
  rw [chars] at mem
  rcases mem_append.mp mem with inWord | inDigits
  · exact (proper_of_mem inWord).1
  · exact Name.isLegal_of_isLegalInIndex (Name.isLegalInIndex_of_isDigit (isDigits c inDigits))

/-- The word is what stands before the first digit. -/
theorem takeWhile_text (t : Tag) :
    t.text.toList.takeWhile (fun c => !c.isDigit) = t.word.toList := by
  obtain ⟨digits, chars, isDigits, -⟩ := t.text_chars
  rw [chars, takeWhile_append_of_pos fun c mem => by simp [(proper_of_mem mem).2]]
  have none : digits.takeWhile (fun c => !c.isDigit) = [] := by
    cases digits with
    | nil => rfl
    | cons c => simp [isDigits c mem_cons_self]
  rw [none, append_nil]

theorem text_inj {t' : Tag} (same : t.text = t'.text) : t = t' := by
  have words : t.word = t'.word := by
    rw [← String.toList_inj, ← takeWhile_text, ← takeWhile_text, same]
  have numbers : t.number = t'.number := by
    obtain ⟨digits, chars, -, number⟩ := t.text_chars
    obtain ⟨digits', chars', -, number'⟩ := t'.text_chars
    rw [same, chars', words] at chars
    have rest := append_cancel_left chars
    rw [number, number'] at rest
    cases known : t.number with
    | none =>
      cases known' : t'.number with
      | none => rfl
      | some k =>
        simp only [known, known', Option.map_none, Option.map_some, Option.getD] at rest
        exact absurd rest (Decimal.digitText_ne_nil k)
    | some k =>
      cases known' : t'.number with
      | none =>
        simp only [known, known', Option.map_none, Option.map_some, Option.getD] at rest
        exact absurd rest.symm (Decimal.digitText_ne_nil k)
      | some =>
        simp only [known, known', Option.map_some, Option.getD] at rest
        rw [Decimal.digitText_inj (String.toList_inj.mp rest.symm)]
  obtain ⟨word, number, proper⟩ := t
  obtain ⟨word', number', proper'⟩ := t'
  cases words
  cases numbers
  rfl

/-! The tags in use. -/

def pos : Tag := { word := "pos", number := none }
def neg : Tag := { word := "neg", number := none }
def one : Tag := { word := "one", number := none }
def all : Tag := { word := "all", number := none }
def any : Tag := { word := "any", number := none }
def link : Tag := { word := "link", number := none }
def thenUpper : Tag := { word := "then_ub", number := none }
def thenLower : Tag := { word := "then_lb", number := none }
def elseUpper : Tag := { word := "else_ub", number := none }
def elseLower : Tag := { word := "else_lb", number := none }
def least (k : Nat) : Tag := { word := "ge", number := some k }
def most (k : Nat) : Tag := { word := "le", number := some k }
def selected (k : Nat) : Tag := { word := "sel", number := some k }
def low (k : Nat) : Tag := { word := "lo", number := some k }
def high (k : Nat) : Tag := { word := "hi", number := some k }

end Tag

/-- One use of an operator. -/
structure Use where
  operator : Operator
  number : Nat
  deriving DecidableEq

namespace Use

variable {part part' : Part} {u u' : Use}

/-- The family of the results of an operator, which is also the counter of its uses. -/
def family (cfg : Config) (u : Use) : String :=
  cfg.auxiliaryWord.text ++ "_" ++ u.operator.word

def partFamily (cfg : Config) (u : Use) : Part → String
  | .whole => u.family cfg
  | .selector _ => u.family cfg ++ "_sel"
  | .portion _ => u.family cfg ++ "_seg"

def partIndex (u : Use) : Part → List Nat
  | .whole => [u.number]
  | .selector k | .portion k => [u.number, k]

/-- The key of an auxiliary variable. -/
def key (cfg : Config) (u : Use) (part : Part) : VarKey :=
  VarKey.numbered (u.partFamily cfg part) (u.partIndex part)

/-- The kind of an auxiliary variable. -/
def kind (u : Use) : Part → VariableKind
  | .whole =>
    match u.operator with
    | .conjunction | .disjunction => .binary
    | _ => .continuous
  | .selector _ => .binary
  | .portion _ => .continuous

/-- The name of a row. -/
def rowName (cfg : Config) (u : Use) (tag : Tag) : String :=
  u.family cfg ++ "_" ++ toString u.number ++ "_" ++ tag.text

theorem partIndex_ne_nil (u : Use) (part : Part) : u.partIndex part ≠ [] := by
  cases part <;> exact cons_ne_nil _ _

theorem partFamily_eq (cfg : Config) (u : Use) (part : Part) :
    u.partFamily cfg part = u.family cfg ++ part.suffix := by
  cases part with
  | whole => simp [partFamily, Part.suffix]
  | selector | portion => rfl

theorem key_equal_key (cfg : Config) (u : Use) {part part' : Part} :
    (u.key cfg part).equal (u.key cfg part') = true ↔ part = part' := by
  rw [key, key, VarKey.numbered_equal_numbered, partFamily_eq, partFamily_eq, ← String.toList_inj,
    String.toList_append, String.toList_append, append_cancel_left_eq, String.toList_inj]
  cases part <;> cases part' <;> simp [Part.suffix, partIndex]

/-! ## The default settings -/

theorem family_default (u : Use) : u.family {} = "aux_" ++ u.operator.word := rfl

/-- The families of auxiliary variables are short names that begin with the word for them, and tell
operators and kinds of parts apart. -/
theorem stem_properties : ∀ o ∈ Operator.all, ∀ suffix ∈ Part.suffixes,
    let name := "aux_" ++ o.word ++ suffix
    Name.sanitize 255 name = name ∧ name.length ≤ 255 ∧ '(' ∉ name.toList
      ∧ "aux_".toList <+: name.toList
      ∧ ∀ o' ∈ Operator.all, ∀ suffix' ∈ Part.suffixes,
        name = "aux_" ++ o'.word ++ suffix' → o = o' ∧ suffix = suffix' := by
  decide +kernel

theorem partFamily_properties (u : Use) (part : Part) :
    Name.sanitize 255 (u.partFamily {} part) = u.partFamily {} part
      ∧ (u.partFamily {} part).length ≤ 255 ∧ '(' ∉ (u.partFamily {} part).toList
      ∧ "aux_".toList <+: (u.partFamily {} part).toList := by
  rw [partFamily_eq, family_default]
  obtain ⟨same, short, bracket, begins, -⟩ :=
    stem_properties u.operator u.operator.mem_all part.suffix part.suffix_mem
  exact ⟨same, short, bracket, begins⟩

section

variable (same : u.partFamily {} part = u'.partFamily {} part')
include same

theorem partFamily_inj :
    u.operator = u'.operator ∧ part.suffix = part'.suffix := by
  rw [partFamily_eq, partFamily_eq, family_default, family_default] at same
  exact (stem_properties u.operator u.operator.mem_all part.suffix part.suffix_mem).2.2.2.2
    u'.operator u'.operator.mem_all part'.suffix part'.suffix_mem same

/-- Instances of one family have one arity and one kind. -/
theorem uniform_of_partFamily :
    (u.partIndex part).length = (u'.partIndex part').length ∧ u.kind part = u'.kind part' := by
  obtain ⟨operators, suffixes⟩ := partFamily_inj same
  cases part <;> cases part' <;> simp_all [Part.suffix, partIndex, kind]

theorem eq_of_partFamily_of_partIndex (same' : u.partIndex part = u'.partIndex part') :
    u = u' ∧ part = part' := by
  obtain ⟨operators, suffixes⟩ := partFamily_inj same
  obtain ⟨operator, number⟩ := u
  obtain ⟨operator', number'⟩ := u'
  cases part <;> cases part' <;> simp_all [Part.suffix, partIndex]

end

/-- Different parts of uses are different variables. -/
theorem key_inj (same : (u.key {} part).equal (u'.key {} part') = true) :
    u = u' ∧ part = part' := by
  obtain ⟨families, indices⟩ := VarKey.numbered_equal_numbered.mp same
  exact eq_of_partFamily_of_partIndex families indices

theorem text_key_inj (same : (u.key {} part).text = (u'.key {} part').text) :
    u = u' ∧ part = part' := by
  obtain ⟨families, indices⟩ := VarKey.text_numbered_inj (u.partIndex_ne_nil part)
    (u'.partIndex_ne_nil part') (u.partFamily_properties part).2.2.1
    (u'.partFamily_properties part').2.2.1 same
  exact eq_of_partFamily_of_partIndex families indices

/-- The LP name of an auxiliary variable is its readable form, if that is short enough. -/
theorem ofKey_key (short : (u.key {} part).text.length ≤ 255) :
    Name.ofKey 255 (u.key {} part) = (u.key {} part).text :=
  Name.ofKey_numbered (u.partIndex_ne_nil part) (u.partFamily_properties part).1
    (by exact_mod_cast short)

/-- Instances of the families of auxiliary variables have LP names that begin with the word for
them, whoever declared them. -/
theorem begins_of_family {key : VarKey} (same : key.family = u.partFamily {} part) :
    "aux_".toList <+: (Name.ofKey 255 key).toList := by
  obtain ⟨name, short, -, begins⟩ := u.partFamily_properties part
  rw [← same] at name short begins
  exact begins.trans (Name.family_isPrefix_ofKey name (by exact_mod_cast short))

/-! ### Rows -/

theorem rowName_chars (u : Use) (tag : Tag) :
    (u.rowName {} tag).toList = "aux_".toList ++ (u.operator.word.toList ++
      '_' :: ((Decimal.digitText u.number).toList ++ '_' :: tag.text.toList)) := by
  rw [rowName, family_default, Decimal.toString_eq_digitText]
  simp only [String.toList_append, append_assoc]
  rfl

/-- Different rows of uses have different names. -/
theorem rowName_inj {tag tag' : Tag} (same : u.rowName {} tag = u'.rowName {} tag') :
    u = u' ∧ tag = tag' := by
  have plain : ∀ o : Operator, '_' ∉ o.word.toList := by
    intro o
    cases o <;> decide
  have words : ∀ o o' : Operator, o.word.toList = o'.word.toList → o = o' := by
    intro o o' same
    cases o <;> cases o' <;> first | rfl | exact absurd same (by decide)
  rw [← String.toList_inj, rowName_chars, rowName_chars] at same
  obtain ⟨operators, rest⟩ :=
    append_cons_inj_of_first (plain _) (plain _) (append_cancel_left same)
  obtain ⟨numbers, tags⟩ := append_cons_inj_of_first (Decimal.not_mem_digitText (by decide) _)
    (Decimal.not_mem_digitText (by decide) _) rest
  obtain ⟨operator, number⟩ := u
  obtain ⟨operator', number'⟩ := u'
  cases words _ _ operators
  cases Decimal.digitText_inj (String.toList_inj.mp numbers)
  exact ⟨rfl, Tag.text_inj (String.toList_inj.mp tags)⟩

theorem rowName_begins (u : Use) (tag : Tag) : "aux_".toList <+: (u.rowName {} tag).toList := by
  rw [rowName_chars]
  exact prefix_append _ _

theorem sanitize_rowName {tag : Tag} (short : (u.rowName {} tag).length ≤ 255) :
    Name.sanitize 255 (u.rowName {} tag) = u.rowName {} tag := by
  refine Name.sanitize_eq_self ?_ ?_ ?_ (by exact_mod_cast short)
  · intro c mem
    have start : "aux_".toList.all Name.isLegal = true := by decide
    have word : ∀ o : Operator, o.word.toList.all Name.isLegal = true := by
      intro o
      cases o <;> decide
    rw [rowName_chars] at mem
    simp only [mem_append, mem_cons] at mem
    rcases mem with first | inWord | rfl | digit | rfl | inTag
    · exact all_eq_true.mp start c first
    · exact all_eq_true.mp (word _) c inWord
    · decide
    · exact Name.isLegal_of_isLegalInIndex
        (Name.isLegalInIndex_of_isDigit (Decimal.isDigit_of_mem digit))
    · decide
    · exact Tag.isLegal_of_mem_text inTag
  · rw [rowName_chars]
    exact append_ne_nil_of_left_ne_nil (by decide) _
  · rw [rowName_chars]
    rfl

end Use

end LinearProgram
