import LinearProgram.LpText
import LinearProgram.Proofs.Assignment
import LinearProgram.Proofs.Names

/-!
# Reading the words of LP text

A line of LP text is words with blanks between them: signs, numbers, which start with a digit, and
names, which do not (`Name.IsName`). An expression is read with the sign and the number before a
name in store (`Scan`).
-/

namespace LinearProgram

open List

variable {text : String} {n : Int} {parts : List String} {x : Number}

/-! ## Numbers that are not finite -/

namespace Double

open Float.Model Float.Model.UnpackedFloat

/-- A double that is not finite is NaN or an infinity. -/
theorem eq_of_not_finite {x : Float} (far : x.isFinite = false) :
    x = Float.nan ∨ ∃ negative, x = infinity negative := by
  have model : x.toModel.unpack.isFinite = false := far
  cases unpacked : x.toModel.unpack with
  | notANumber =>
    left
    have isNaN : x.isNaN = true := by
      show x.toModel.unpack.isNaN = true
      rw [unpacked]
      rfl
    rwa [Float.isNaN_eq_decide_eq_nan, decide_eq_true_eq] at isNaN
  | infinity s =>
    right
    refine ⟨s == .negative, ?_⟩
    have same : (x == infinity (s == .negative)) = true := by
      show x.toModel.unpack.beq (infinity (s == .negative)).toModel.unpack = true
      rw [unpacked, unpack_infinity]
      cases s <;> rfl
    have nonzero : ∀ negative, infinity negative ≠ 0 ∧ infinity negative ≠ -0 := by decide
    obtain ⟨-, -, equal | ⟨-, zero⟩ | ⟨-, zero⟩⟩ := Float.beq_iff_ne_nan_and_eq.mp same
    · exact equal
    · exact absurd zero (nonzero _).2
    · exact absurd zero (nonzero _).1
  | zero =>
    rw [unpacked] at model
    cases model
  | finite =>
    rw [unpacked] at model
    cases model

end Double

/-- A whole number, an infinity or NaN. -/
def Number.IsPlain (x : Number) : Prop :=
  (∃ n, x = .int n) ∨ (∃ negative, x = .float (Double.infinity negative)) ∨ x = .float Float.nan

theorem Number.isPlain_of_finite (whole : x.isFinite = true → ∃ n, x = .int n) : x.IsPlain := by
  cases finite : x.isFinite with
  | true => exact .inl (whole finite)
  | false =>
    cases x with
    | bool | int => cases finite
    | float =>
      rcases Double.eq_of_not_finite finite with rfl | ⟨negative, rfl⟩
      · exact .inr (.inr rfl)
      · exact .inr (.inl ⟨negative, rfl⟩)

theorem Number.IsPlain.eq_of_equal {y : Number} (left : x.IsPlain) (right : y.IsPlain)
    (equal : x.equal y = true) : x = y := by
  have nan : ∀ n : Int, (Number.float Float.nan).equal (.int n) = false := by
    intro n
    rw [equal_float_int, show Double.ofFloat Float.nan = .nan by decide]
    rfl
  have infinite : ∀ a b : Bool, (Number.float (Double.infinity a)).equal
      (.float (Double.infinity b)) = true → a = b := by decide
  have nans : ∀ a : Bool, (Number.float (Double.infinity a)).equal (.float Float.nan) = false
      ∧ (Number.float Float.nan).equal (.float (Double.infinity a)) = false
      ∧ (Number.float Float.nan).equal (.float Float.nan) = false := by decide
  rcases left with ⟨m, rfl⟩ | ⟨a, rfl⟩ | rfl <;> rcases right with ⟨n, rfl⟩ | ⟨b, rfl⟩ | rfl
  · rw [equal_of_toInt rfl rfl, decide_eq_true_eq] at equal
    rw [equal]
  · rw [int_equal_infinity] at equal
    cases equal
  · rw [int_equal_comm, nan] at equal
    cases equal
  · rw [← int_equal_comm, int_equal_infinity] at equal
    cases equal
  · rw [infinite a b equal]
  · rw [(nans a).1] at equal
    cases equal
  · rw [nan] at equal
    cases equal
  · rw [(nans b).2.1] at equal
    cases equal
  · rfl

namespace LpText

/-! ## Words -/

/-- The words of a line. -/
def words (line : List Char) : List (List Char) := line.splitOn ' '

theorem words_append (left right : List Char) :
    words (left ++ ' ' :: right) = words left ++ words right :=
  splitOnP_append_cons left right (by decide)

/-- A text that goes into a line as one word. -/
structure Solid (word : List Char) : Prop where
  blank : ' ' ∉ word
  lineEnd : '\n' ∉ word

theorem Solid.words {word : List Char} (solid : Solid word) : words word = [word] := by
  have split := splitOn_intercalate ' ' (by simpa using solid.blank) (cons_ne_nil word [])
  rwa [intercalate_singleton] at split

theorem Solid.of_forall {word : List Char} {test : Char → Bool} (all : ∀ c ∈ word, test c = true)
    (blank : test ' ' = false) (lineEnd : test '\n' = false) : Solid word := by
  constructor <;> intro mem
  · rw [all _ mem] at blank
    cases blank
  · rw [all _ mem] at lineEnd
    cases lineEnd

theorem solid_name {name : List Char} (isName : Name.IsName name) : Solid name :=
  .of_forall isName.legal (by decide) (by decide)

theorem solid_digits (n : Nat) : Solid (Decimal.digitText n).toList :=
  .of_forall (fun _ => Decimal.isDigit_of_mem) (by decide) (by decide)

/-! ## Numbers -/

def readNat (digits : List Char) : Nat := Nat.ofDigitChars 10 digits 0

theorem readNat_digitText (n : Nat) : readNat (Decimal.digitText n).toList = n := by
  rw [Decimal.toList_digitText]
  exact Nat.ofDigitChars_ten_toDigits

def readNumber (word : List Char) : Number :=
  if word = "1e+30".toList then .infinity
  else if word = "-1e+30".toList then .negInfinity
  else if word = "nan".toList then .float Float.nan
  else
    match word with
    | '-' :: digits => .int (-(readNat digits : Int))
    | digits => .int (readNat digits)

theorem number_int (shown : number {} (.int n) = .ok text) : text = toString n := by
  unfold number at shown
  rw [if_neg (by simp [Number.infinity, Number.int_equal_infinity]),
    if_neg (by simp [Number.negInfinity, Number.int_equal_infinity])] at shown
  obtain ⟨f, -, shown⟩ := bind_eq_ok.mp shown
  cases shown
  rfl

theorem number_natAbs (shown : number {} (Number.int n).abs = .ok text) :
    text = Decimal.digitText n.natAbs := by
  rw [number_int shown, ← Decimal.toString_eq_digitText]
  rfl

/-- The characters of a whole number: a sign for a negative one, then digits. -/
theorem toList_toString_int (n : Int) :
    (toString n).toList
      = (if n < 0 then ['-'] else []) ++ (Decimal.digitText n.natAbs).toList := by
  cases n with
  | ofNat =>
    rw [if_neg (by simp), nil_append, ← Decimal.toString_eq_digitText]
    rfl
  | negSucc k =>
    rw [if_pos (Int.negSucc_lt_zero k), ← Decimal.toString_eq_digitText]
    show ("-" ++ toString (k + 1)).toList = _
    rw [String.toList_append]
    rfl

theorem readNumber_int (n : Int) : readNumber (toString n).toList = .int n := by
  rw [toList_toString_int]
  have other : ∀ {c : Char} {word : List Char}, c.isDigit = false → c ≠ '-' → c ∈ word →
      (if n < 0 then ['-'] else []) ++ (Decimal.digitText n.natAbs).toList ≠ word := by
    rintro c word noDigit noSign inside rfl
    rcases mem_append.mp inside with sign | digit
    · split at sign
      · exact noSign (mem_singleton.mp sign)
      · cases sign
    · exact Decimal.not_mem_digitText noDigit _ digit
  unfold readNumber
  rw [if_neg (other (c := 'e') (by decide) (by decide) (by decide)),
    if_neg (other (c := 'e') (by decide) (by decide) (by decide)),
    if_neg (other (c := 'n') (by decide) (by decide) (by decide))]
  by_cases negative : n < 0
  · rw [if_pos negative]
    show Number.int (-(readNat (Decimal.digitText n.natAbs).toList : Int)) = Number.int n
    rw [readNat_digitText]
    congr
    omega
  · rw [if_neg negative, nil_append]
    split
    case h_1 digits shape =>
      exact absurd (shape ▸ mem_cons_self) (Decimal.not_mem_digitText (by decide) n.natAbs)
    case h_2 =>
      rw [readNat_digitText]
      congr
      omega

theorem solid_int (n : Int) : Solid (toString n).toList := by
  rw [toList_toString_int]
  have digits := solid_digits n.natAbs
  constructor
  · split <;> simp [digits.blank]
  · split <;> simp [digits.lineEnd]

/-- What is written for a plain number is one word, which stands for the number. -/
theorem readNumber_number (plain : x.IsPlain) (shown : number {} x = .ok text) :
    readNumber text.toList = x ∧ Solid text.toList := by
  have word : ∀ {w : String}, number {} x = .ok w → text = w := fun other =>
    Except.ok.inj (shown.symm.trans other)
  rcases plain with ⟨n, rfl⟩ | ⟨negative, rfl⟩ | rfl
  · rw [number_int shown]
    exact ⟨readNumber_int n, solid_int n⟩
  · cases negative with
    | false =>
      rw [word (w := "1e+30") (if_pos (by decide))]
      exact ⟨rfl, ⟨by decide, by decide⟩⟩
    | true =>
      rw [word (w := "-1e+30") ((if_neg (by decide)).trans (if_pos (by decide)))]
      exact ⟨rfl, ⟨by decide, by decide⟩⟩
  · rw [word (w := "nan") ((if_neg (by decide)).trans (if_neg (by decide)))]
    exact ⟨rfl, ⟨by decide, by decide⟩⟩

/-! ## Expressions -/

/-- What has been read of an expression: the sign and the number that are in store for the next
name, and the terms and constants before them. -/
structure Scan where
  negative : Bool := false
  number : Option Nat := none
  terms : List (String × Number) := []
  constant : Int := 0

namespace Scan

/-- A number with the sign that was read before it. -/
def signed (r : Scan) (k : Nat) : Int := if r.negative then -(k : Int) else k

/-- A number that no name follows is a constant. -/
def settle (r : Scan) : Scan :=
  match r.number with
  | none => r
  | some k => { r with number := none, constant := r.constant + r.signed k }

/-- Read one word. -/
def step (r : Scan) (word : List Char) : Scan :=
  if word = ['+'] then { r.settle with negative := false }
  else if word = ['-'] then { r.settle with negative := true }
  else if word.head?.any Char.isDigit then { r with number := some (readNat word) }
  else
    { r with
      negative := false
      number := none
      terms := r.terms ++ [(String.ofList word, .int (r.signed (r.number.getD 1)))] }

/-- Nothing is in store. -/
structure Idle (r : Scan) : Prop where
  negative : r.negative = false
  number : r.number = none

def append (r : Scan) (terms : List (String × Number)) : Scan :=
  { r with terms := r.terms ++ terms }

variable {r : Scan} {name : List Char}

theorem Idle.append (idle : r.Idle) (terms : List (String × Number)) : (r.append terms).Idle :=
  ⟨idle.negative, idle.number⟩

theorem append_append (r : Scan) (ts us : List (String × Number)) :
    (r.append ts).append us = r.append (ts ++ us) := by
  simp [append]

theorem step_digits (r : Scan) (k : Nat) :
    r.step (Decimal.digitText k).toList = { r with number := some k } := by
  obtain ⟨d, rest, shape⟩ := exists_cons_of_ne_nil (Decimal.digitText_ne_nil k)
  have digit : d.isDigit = true := Decimal.isDigit_of_mem (n := k) (by simp [shape])
  have plus : d ≠ '+' := by
    rintro rfl
    cases digit
  have minus : d ≠ '-' := by
    rintro rfl
    cases digit
  rw [step, readNat_digitText, shape]
  simp [plus, minus, digit]

theorem step_name (isName : Name.IsName name) (nonempty : name ≠ []) :
    r.step name = { r with
      negative := false
      number := none
      terms := r.terms ++ [(String.ofList name, .int (r.signed (r.number.getD 1)))] } := by
  obtain ⟨c, rest, rfl⟩ := exists_cons_of_ne_nil nonempty
  have legal := isName.legal c mem_cons_self
  have plus : c ≠ '+' := by
    rintro rfl
    exact absurd legal (by decide)
  have minus : c ≠ '-' := by
    rintro rfl
    exact absurd legal (by decide)
  have letter : c.isDigit = false := isName.start c rfl
  rw [step]
  simp [plus, minus, letter]

/-- The words of a term without its sign: a number other than one, and a name. -/
def termWords (n : Int) (name : List Char) : List (List Char) :=
  (if n.natAbs = 1 then [] else [(Decimal.digitText n.natAbs).toList]) ++ [name]

theorem foldl_termWords (isName : Name.IsName name) (nonempty : name ≠ [])
    (none : r.number = none) (n : Int) :
    (termWords n name).foldl step r = { r with
      negative := false
      terms := r.terms ++ [(String.ofList name, .int (r.signed n.natAbs))] } := by
  unfold termWords
  split
  case isTrue one =>
    rw [nil_append, foldl_cons, foldl_nil, step_name isName nonempty]
    simp [none, one]
  case isFalse =>
    rw [singleton_append, foldl_cons, step_digits, foldl_cons, foldl_nil,
      step_name isName nonempty]
    simp [none, signed]

theorem signed_natAbs (r : Scan) (n : Int) :
    ({ r with negative := decide (n < 0) } : Scan).signed n.natAbs = n := by
  simp only [signed, decide_eq_true_eq]
  split <;> omega

/-- The word for the sign of a number. -/
def signWord (n : Int) : List Char := if n < 0 then ['-'] else ['+']

theorem step_signWord (r : Scan) (n : Int) :
    r.step (signWord n) = { r.settle with negative := decide (n < 0) } := by
  unfold signWord step
  split
  case isTrue negative => simp [negative]
  case isFalse positive => simp [positive]

theorem settle_of_idle (idle : r.Idle) : r.settle = r := by
  rw [settle, idle.number]

/-- A term with its sign. -/
theorem foldl_signed_term (isName : Name.IsName name) (nonempty : name ≠ []) (idle : r.Idle)
    (n : Int) :
    (signWord n :: termWords n name).foldl step r = r.append [(String.ofList name, .int n)] := by
  have none : ({ r with negative := decide (n < 0) } : Scan).number = none := idle.number
  rw [foldl_cons, step_signWord, settle_of_idle idle, foldl_termWords isName nonempty none,
    signed_natAbs]
  simp [append, idle.negative]

/-- The first term, which has a sign only if it is negative. -/
theorem foldl_first_term (isName : Name.IsName name) (nonempty : name ≠ []) (idle : r.Idle)
    (n : Int) :
    ((if n < 0 then [['-']] else []) ++ termWords n name).foldl step r
      = r.append [(String.ofList name, .int n)] := by
  split
  case isTrue negative =>
    have signed := foldl_signed_term isName nonempty idle n
    rwa [signWord, if_pos negative] at signed
  case isFalse positive =>
    rw [nil_append, foldl_termWords isName nonempty idle.number]
    have same : r.signed n.natAbs = n := by
      rw [signed, idle.negative]
      simp only [Bool.false_eq_true, if_false]
      omega
    simp [append, same, idle.negative]

end Scan

/-! ## Polynomials -/

theorem words_intercalate (nonempty : parts ≠ []) :
    words (" ".intercalate parts).toList = parts.flatMap fun part => words part.toList := by
  rw [String.toList_intercalate]
  induction parts with
  | nil => exact absurd rfl nonempty
  | cons part rest ih =>
    cases rest with
    | nil => simp
    | cons =>
      rw [map_cons, map_cons, intercalate_cons_cons, append_assoc]
      refine (words_append part.toList _).trans ?_
      rw [flatMap_cons, ← ih (cons_ne_nil _ _)]
      rfl

end LpText

/-- The LP name and the coefficient of a term. -/
def Model.namedTerm (m : Model) (term : VarKey × Number) : Except Error (String × Number) :=
  match m.declared? term.1 with
  | none => breakDown .missingKey
  | some v => .ok (v.name, term.2)

/-- The terms of a polynomial under the LP names of their instances. -/
def Model.namedTerms (m : Model) (p : Polynomial) : Except Error (List (String × Number)) :=
  p.terms.mapM m.namedTerm

/-- All columns have names that can be told from numbers and signs. -/
def Model.Legible (m : Model) : Prop :=
  ∀ v ∈ m.columns, Name.IsName v.name.toList ∧ v.name.toList ≠ []

namespace LpText

variable {m : Model} (legible : m.Legible)

theorem abs_equal_one (n : Int) :
    (Number.int n).abs.equal (.int 1) = true ↔ n.natAbs = 1 := by
  rw [Number.abs, Number.equal_of_toInt rfl rfl, decide_eq_true_eq]
  omega

/-- A word and a blank before a text. -/
theorem words_mark (mark : Char) (solid : Solid [mark]) (text : String) :
    words (String.ofList [mark, ' '] ++ text).toList = [mark] :: words text.toList := by
  rw [String.toList_append, String.toList_ofList]
  exact (words_append [mark] text.toList).trans (by rw [solid.words]; rfl)

theorem words_signed (n : Int) (text : String) :
    words ((if (Number.int n).less (.int 0) then "- " else "+ ") ++ text).toList
      = Scan.signWord n :: words text.toList := by
  simp only [Number.less_int, decide_eq_true_eq, Scan.signWord]
  split
  · exact words_mark '-' ⟨by decide, by decide⟩ text
  · exact words_mark '+' ⟨by decide, by decide⟩ text

theorem words_first (n : Int) (text : String) :
    words (if (Number.int n).less (.int 0) then "- " ++ text else text).toList
      = (if n < 0 then [['-']] else []) ++ words text.toList := by
  simp only [Number.less_int, decide_eq_true_eq]
  split
  · exact words_mark '-' ⟨by decide, by decide⟩ text
  · rfl

include legible

theorem term_words {key : VarKey} (shown : term {} m key (.int n) = .ok text) :
    ∃ v ∈ m.columns, m.declared? key = some v
      ∧ words text.toList = Scan.termWords n v.name.toList := by
  unfold term at shown
  split at shown
  · exact absurd shown (breakDown_ne_ok _ _)
  case h_2 v declared =>
    have mem := mem_of_find?_eq_some declared
    have solid := solid_name (legible v mem).1
    refine ⟨v, mem, declared, ?_⟩
    split at shown
    case isTrue one =>
      cases shown
      rw [Scan.termWords, if_pos ((abs_equal_one n).mp one), solid.words]
      rfl
    case isFalse other =>
      obtain ⟨digits, written, done⟩ := bind_eq_ok.mp shown
      cases done
      have isDigits := solid_digits n.natAbs
      rw [number_natAbs written, Scan.termWords, if_neg (mt (abs_equal_one n).mpr other)]
      rw [String.toList_append, String.toList_append, append_assoc,
        show " ".toList ++ v.name.toList = ' ' :: v.name.toList from rfl, words_append,
        isDigits.words, solid.words]

theorem laterTerms_words {l : List (VarKey × Number)} (whole : ∀ t ∈ l, ∃ n, t.2 = .int n)
    (shown : laterTerms {} m l = .ok parts) :
    ∃ named, l.mapM m.namedTerm = .ok named ∧ ∀ r : Scan, r.Idle →
        (parts.flatMap fun part => words part.toList).foldl Scan.step r = r.append named := by
  induction l generalizing parts with
  | nil =>
    cases shown
    exact ⟨[], rfl, fun r _ => by simp [Scan.append]⟩
  | cons _ _ ih =>
    rw [forall_mem_cons] at whole
    obtain ⟨⟨n, isInt⟩, wholeRest⟩ := whole
    obtain ⟨text, written, shown⟩ := bind_eq_ok.mp shown
    obtain ⟨others, later, done⟩ := bind_eq_ok.mp shown
    cases done
    rw [isInt] at written ⊢
    obtain ⟨v, mem, declared, isWords⟩ := term_words legible written
    obtain ⟨named, isNamed, scanned⟩ := ih wholeRest later
    refine ⟨(v.name, .int n) :: named, ?_, fun r idle => ?_⟩
    · rw [mapM_cons, isNamed, Model.namedTerm, declared, isInt]
      rfl
    · rw [flatMap_cons, words_signed, isWords, foldl_append,
        Scan.foldl_signed_term (legible v mem).1 (legible v mem).2 idle,
        scanned _ (idle.append _), Scan.append_append, String.ofList_toList]
      rfl

/-- Reading back the text of a polynomial gives its terms under their names. -/
theorem terms_words {p : Polynomial} (whole : ∀ t ∈ p.terms, ∃ n, t.2 = .int n)
    (shown : terms {} m p = .ok text) :
    ∃ named, m.namedTerms p = .ok named ∧ ∀ r : Scan, r.Idle →
      ((words text.toList).foldl Scan.step r).settle = r.append named := by
  unfold terms at shown
  unfold Model.namedTerms
  split at shown
  case h_1 none =>
    cases shown
    refine ⟨[], by rw [none]; rfl, fun r idle => ?_⟩
    -- a lone zero is a constant that adds nothing
    show ((["0".toList] : List (List Char)).foldl Scan.step r).settle = _
    rw [foldl_cons, foldl_nil, show "0".toList = (Decimal.digitText 0).toList from rfl,
      Scan.step_digits]
    obtain ⟨negative, number, terms, constant⟩ := r
    obtain ⟨rfl, rfl⟩ := idle
    simp [Scan.settle, Scan.signed, Scan.append]
  case h_2 first rest shape =>
    rw [shape, forall_mem_cons] at whole
    obtain ⟨⟨n, isInt⟩, wholeRest⟩ := whole
    obtain ⟨head, written, shown⟩ := bind_eq_ok.mp shown
    obtain ⟨others, later, done⟩ := bind_eq_ok.mp shown
    cases done
    rw [isInt] at written ⊢
    obtain ⟨v, mem, declared, isWords⟩ := term_words legible written
    obtain ⟨named, isNamed, scanned⟩ := laterTerms_words legible wholeRest later
    refine ⟨(v.name, .int n) :: named, ?_, fun r idle => ?_⟩
    · rw [shape, mapM_cons, isNamed, Model.namedTerm, declared, isInt]
      rfl
    · rw [words_intercalate (cons_ne_nil _ _), flatMap_cons, words_first, isWords,
        foldl_append, Scan.foldl_first_term (legible v mem).1 (legible v mem).2 idle,
        scanned _ (idle.append _), Scan.append_append, String.ofList_toList,
        Scan.settle_of_idle (idle.append _)]
      rfl

end LpText

end LinearProgram
