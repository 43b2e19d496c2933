import LinearProgram.Proofs.ExactData
import LinearProgram.Proofs.Interval

/-!
# Kinds and bounds as given

A statement gives a kind by a word, and a bound by nothing, a number or a word for infinity. What
these ask of a value is said by the words themselves (`VariableKind.NamedBy`, `Bound.AsksLower`,
`Bound.AsksUpper`), apart from how they are read (`Variable.allows_iff_asked`).
-/

namespace LinearProgram

open List

variable {value : Value}

namespace Number

theorem rational?_infinity (negative : Bool) :
    (float (Double.infinity negative)).rational? = none := by
  cases negative <;> rfl

theorem not_atMost_infinity (q : ℚ) : ¬ infinity.AtMost q := by
  simp [AtMost, infinity, rational?_infinity]
  decide

theorem not_atLeast_negInfinity (q : ℚ) : ¬ negInfinity.AtLeast q := by
  simp [AtLeast, negInfinity, rational?_infinity]
  decide

end Number

/-! ## Words -/

/-- Letters that spell a word, small or capital. -/
def Spells (letters : List Char) (word : String) : Prop := letters.map Char.toLower = word.toList

theorem spells_toList {s word : String} : Spells s.toList word ↔ s.toLower = word := by
  rw [Spells, ← String.toList_map, String.toList_inj, String.toLower]

namespace VariableKind

/-- The words for a kind. -/
def words : VariableKind → List String
  | .continuous => ["continuous", "real"]
  | .integer => ["integer", "int"]
  | .binary => ["binary"]

def NamedBy (kind : VariableKind) (value : Value) : Prop :=
  ∃ word ∈ kind.words, Spells value.text.toList word

/-- The values that variables of a kind take. -/
def Takes : VariableKind → ℚ → Prop
  | .continuous, _ => True
  | .integer, q => ∃ n : Int, q = n
  | .binary, q => q = 0 ∨ q = 1

theorem ofText?_eq_some_iff {s : String} {kind : VariableKind} :
    ofText? s = some kind ↔ ∃ word ∈ kind.words, Spells s.toList word := by
  simp only [spells_toList]
  constructor
  · intro found
    unfold ofText? at found
    dsimp only at found
    split at found
    case isTrue real =>
      cases found
      exact ⟨"real", by decide, by simpa using real⟩
    split at found
    case isTrue int =>
      cases found
      exact ⟨"int", by decide, by simpa using int⟩
    have named := find?_some found
    exact ⟨kind.word, by cases kind <;> decide, (beq_iff_eq.mp named).symm⟩
  · rintro ⟨word, isWord, lower⟩
    rw [ofText?, lower]
    revert word
    cases kind <;> simp [words, all, word]

theorem ofValue_ok_iff {kind : VariableKind} : ofValue value = .ok kind ↔ kind.NamedBy value := by
  rw [NamedBy, ← ofText?_eq_some_iff, ofValue]
  split
  case h_1 found => simp [found]
  case h_2 absent => simp [absent, raise]

end VariableKind

namespace Blank

theorem toLower_of_isBlank {c : Char} (blank : isBlank c = true) : c.toLower = c := by
  have small : ¬ (65 ≤ c.toNat ∧ c.toNat ≤ 90) := by
    simp [isBlank, ranges] at blank
    omega
  unfold Char.toLower
  exact dif_neg small

/-- What is left of a text is a word if and only if the text is that word with blanks around it. -/
theorem spells_strip_iff {s word : String} (nonempty : word.toList ≠ [])
    (solid : ∀ c ∈ word.toList, isBlank c = false) :
    Spells (strip s).toList word ↔ ∃ before letters after, s.toList = before ++ letters ++ after
      ∧ (∀ c ∈ before ++ after, isBlank c = true) ∧ Spells letters word := by
  rw [strip, String.toList_ofList]
  constructor
  · intro spells
    refine ⟨s.toList.takeWhile isBlank, _,
      ((s.toList.dropWhile isBlank).reverse.takeWhile isBlank).reverse, ?_, ?_, spells⟩
    · rw [append_assoc, ← reverse_append, takeWhile_append_dropWhile, reverse_reverse,
        takeWhile_append_dropWhile]
    · intro c mem
      rcases mem_append.mp mem with first | last
      · exact mem_takeWhile_imp first
      · exact mem_takeWhile_imp (mem_reverse.mp last)
  · rintro ⟨before, letters, after, split, blanks, spells⟩
    have solid' : ∀ c ∈ letters, isBlank c = false := by
      intro c mem
      cases blank : isBlank c with
      | false => rfl
      | true =>
        have inside : c.toLower ∈ word.toList := spells ▸ mem_map_of_mem mem
        rw [toLower_of_isBlank blank] at inside
        rw [← blank, solid c inside]
    have starts : ∀ {l l' : List Char}, l ≠ [] → (∀ c ∈ l, isBlank c = false) →
        (l ++ l').dropWhile isBlank = l ++ l' := by
      intro l l' some none
      obtain ⟨c, rest, rfl⟩ := exists_cons_of_ne_nil some
      rw [cons_append, dropWhile_cons_of_neg (by simp [none c mem_cons_self])]
    have some : letters ≠ [] := by
      rintro rfl
      exact nonempty spells.symm
    rw [forall_mem_append] at blanks
    rw [split, append_assoc, dropWhile_append_of_pos blanks.1, starts some solid', reverse_append,
      dropWhile_append_of_pos fun c mem => blanks.2 c (mem_reverse.mp mem),
      ← append_nil letters.reverse, starts (by simpa using some) (by simpa using solid'),
      append_nil, reverse_reverse]
    exact spells

end Blank

/-! ## Bounds as given -/

namespace Bound

/-- What a bound asks for: nothing if it is absent or a word of the free side, and of a number what
`asks` says. -/
inductive Asks (asks : ℚ → Prop) (free : List String) : Value → Prop where
  | absent : Asks asks free .none
  | number {v : Value} {n : Int} (isNumber : v.normalize = .int n) (holds : asks n) :
      Asks asks free v
  | word {s word : String} {before letters after : List Char} (isFree : word ∈ free)
      (split : s.toList = before ++ letters ++ after)
      (blanks : ∀ c ∈ before ++ after, Blank.isBlank c = true) (spells : Spells letters word) :
      Asks asks free (.str s)

/-- The words for the infinity that bounds nothing from above. -/
def wordsAbove : List String := ["inf", "+inf", "infinity", "+infinity"]

def wordsBelow : List String := ["-inf", "-infinity"]

/-- What a lower bound asks of a value. -/
def AsksLower (lower : Value) (q : ℚ) : Prop := Asks (· ≤ q) wordsBelow lower

def AsksUpper (upper : Value) (q : ℚ) : Prop := Asks (q ≤ ·) wordsAbove upper

theorem asks_word_iff {asks : ℚ → Prop} {free : List String} {s : String}
    (known : ∀ word ∈ free, word ∈ wordsAbove ++ wordsBelow) :
    Asks asks free (.str s) ↔ (Blank.strip s).toLower ∈ free := by
  have solid : ∀ word ∈ wordsAbove ++ wordsBelow,
      word.toList ≠ [] ∧ ∀ c ∈ word.toList, Blank.isBlank c = false := by
    simp [wordsAbove, wordsBelow, Blank.isBlank, Blank.ranges]
  have stripped {word : String} (isFree : word ∈ free) := Blank.spells_strip_iff (s := s)
    (solid word (known word isFree)).1 (solid word (known word isFree)).2
  constructor
  · intro asked
    cases asked with
    | number isNumber => cases isNumber
    | word isFree split blanks spells =>
      rwa [spells_toList.mp ((stripped isFree).mpr ⟨_, _, _, split, blanks, spells⟩)]
  · intro isFree
    obtain ⟨before, letters, after, split, blanks, spells⟩ :=
      (stripped isFree).mp (spells_toList.mpr rfl)
    exact .word isFree split blanks spells

theorem infinity?_eq {s : String} :
    infinity? s = if (Blank.strip s).toLower ∈ wordsAbove then some .infinity
      else if (Blank.strip s).toLower ∈ wordsBelow then some .negInfinity else none := by
  unfold infinity?
  split <;> simp_all [wordsAbove, wordsBelow]

/-- What an exact bound can be, and how it is read. -/
theorem ofValue_cases {bound : Option Number} (exact : value.Exact)
    (given : ofValue value = .ok bound) :
    (value = .none ∧ bound = none) ∨ (∃ n : Int, value.normalize = .int n ∧ bound = some (.int n))
      ∨ ∃ s, value = .str s ∧ ((Blank.strip s).toLower ∈ wordsAbove ∧ bound = some .infinity
        ∨ (Blank.strip s).toLower ∈ wordsBelow ∧ bound = some .negInfinity) := by
  cases value with
  | none =>
    cases given
    exact .inl ⟨rfl, rfl⟩
  | number x | cell x =>
    cases x with
    | bool =>
      obtain ⟨_, refused, -⟩ := bind_eq_ok.mp given
      exact absurd refused (raise_ne_ok _ _)
    | int n =>
      cases given
      exact .inr (.inl ⟨n, rfl, rfl⟩)
    | float => exact absurd exact id
  | str s =>
    rw [ofValue, infinity?_eq] at given
    refine .inr (.inr ⟨s, rfl, ?_⟩)
    split at given
    case h_1 found =>
      cases given
      split at found
      case isTrue above =>
        cases found
        exact .inl ⟨above, rfl⟩
      split at found
      case isTrue below =>
        cases found
        exact .inr ⟨below, rfl⟩
      cases found
    case h_2 => exact absurd given (raise_ne_ok _ _)
  | _ => exact absurd given (raise_ne_ok _ _)

theorem ofValue_exact {bound : Option Number} (exact : value.Exact)
    (given : ofValue value = .ok bound) (x : Number) (known : bound = some x) :
    (∃ n : Int, x = .int n) ∨ x = .infinity ∨ x = .negInfinity := by
  subst known
  rcases ofValue_cases exact given with ⟨-, absent⟩ | ⟨n, -, isInt⟩ | ⟨s, -, ⟨-, high⟩ | ⟨-, low⟩⟩
  · cases absent
  · exact .inl ⟨n, Option.some.inj isInt⟩
  · exact .inr (.inl (Option.some.inj high))
  · exact .inr (.inr (Option.some.inj low))

/-- A bound that was read is respected if and only if what it asks for holds. -/
theorem respected_iff_asks {bound : Option Number} {holds : Number → Prop} {asks : ℚ → Prop}
    {free : List String} (exact : value.Exact) (given : ofValue value = .ok bound)
    (known : ∀ word ∈ free, word ∈ wordsAbove ++ wordsBelow)
    (whole : ∀ n : Int, holds (.int n) ↔ asks n)
    (above : ∀ word ∈ wordsAbove, holds .infinity ↔ word ∈ free)
    (below : ∀ word ∈ wordsBelow, holds .negInfinity ↔ word ∈ free) :
    (∀ x, bound = some x → holds x) ↔ Asks asks free value := by
  rcases ofValue_cases exact given with
    ⟨rfl, rfl⟩ | ⟨n, isInt, rfl⟩ | ⟨s, rfl, ⟨isWord, rfl⟩ | ⟨isWord, rfl⟩⟩
  · exact iff_of_true (by simp) .absent
  · simp only [Option.some.injEq, forall_eq', whole]
    refine ⟨.number isInt, fun asked => ?_⟩
    cases asked with
    | absent | word => cases isInt
    | number isNumber holds =>
      cases isInt.symm.trans isNumber
      exact holds
  · simp only [Option.some.injEq, forall_eq', above _ isWord, asks_word_iff known]
  · simp only [Option.some.injEq, forall_eq', below _ isWord, asks_word_iff known]

/-- A binary variable has no bounds of its own, no other one has a bound at the wrong end, and
bounds do not cross. -/
theorem check_ok {name : String} {kind : VariableKind} {lower upper : Option Number}
    (checked : check name kind lower upper = .ok ()) :
    (kind = .binary → lower = none ∧ upper = none)
      ∧ (kind ≠ .binary → lower ≠ some .infinity ∧ upper ≠ some .negInfinity)
      ∧ ∀ l u, lower = some l → upper = some u → u.less l = false := by
  -- the checks that integer and continuous variables share
  have ends : ∀ {rest : Except Error Unit}, (do
      if lower.any (Number.equal · .infinity) then raise (.lowerInfinite name)
      if upper.any (Number.equal · .negInfinity) then raise (.upperInfinite name)
      rest) = .ok () → (lower ≠ some .infinity ∧ upper ≠ some .negInfinity) ∧ rest = .ok () := by
    intro rest ran
    dsimp only at ran
    split at ran
    · cases ran
    case isFalse low =>
      split at ran
      · cases ran
      case isFalse high =>
        refine ⟨⟨?_, ?_⟩, ran⟩
        · rintro rfl
          exact low (by decide)
        · rintro rfl
          exact high (by decide)
  have order : ∀ {l u : Number},
      (if u.less l then raise (.crossedBounds name l u) else pure () : Except Error Unit) = .ok () →
        u.less l = false := by
    intro l u uncrossed
    split at uncrossed
    · cases uncrossed
    case isFalse below => simpa using below
  cases kind with
  | binary =>
    rw [check] at checked
    dsimp only at checked
    split at checked
    · cases checked
    case isFalse absent =>
      have missing : lower = none ∧ upper = none := by simpa using absent
      refine ⟨fun _ => missing, fun other => absurd rfl other, ?_⟩
      intro l u given
      simp [missing.1] at given
  | integer =>
    obtain ⟨_, _, checked⟩ := bind_eq_ok.mp checked
    obtain ⟨_, _, checked⟩ := bind_eq_ok.mp checked
    refine ⟨by simp, fun _ => (ends checked).1, ?_⟩
    rintro l u rfl rfl
    exact order (ends checked).2
  | continuous =>
    refine ⟨by simp, fun _ => (ends checked).1, ?_⟩
    rintro l u rfl rfl
    exact order (ends checked).2

end Bound

namespace Variable

variable {v : Variable} (checked : Bound.check v.key.text v.kind v.lower v.upper = .ok ())
include checked

omit checked in
theorem bounds_of_ne_binary (v : Variable) (other : v.kind ≠ .binary) :
    v.bounds = (v.lower.getD .negInfinity, v.upper.getD .infinity) := by
  unfold bounds
  split
  · exact absurd ‹_› other
  · rfl

/-- Bounds that were given as integers or as words for infinity are exact. -/
theorem exactBounds_of_check
    (lower : ∀ x, v.lower = some x → (∃ n : Int, x = .int n) ∨ x = .infinity ∨ x = .negInfinity)
    (upper : ∀ x, v.upper = some x → (∃ n : Int, x = .int n) ∨ x = .infinity ∨ x = .negInfinity) :
    v.ExactBounds := by
  obtain ⟨-, ends, -⟩ := Bound.check_ok checked
  by_cases binary : v.kind = .binary
  · exact v.exactBounds_of_binary binary
  obtain ⟨notLower, notUpper⟩ := ends binary
  have bounds := v.bounds_of_ne_binary binary
  constructor
  · rw [bounds]
    cases given : v.lower with
    | none => exact .inr rfl
    | some x =>
      rcases lower x given with whole | rfl | rfl
      · exact .inl whole
      · exact absurd given notLower
      · exact .inr rfl
  · rw [bounds]
    cases given : v.upper with
    | none => exact .inr rfl
    | some x =>
      rcases upper x given with whole | rfl | rfl
      · exact .inl whole
      · exact .inr rfl
      · exact absurd given notUpper

/-- A variable may take the values that its kind takes and its bounds, as they were given, ask
for. -/
theorem allows_iff_asked {lower upper : Value} (exactLower : lower.Exact)
    (isLower : Bound.ofValue lower = .ok v.lower) (exactUpper : upper.Exact)
    (isUpper : Bound.ofValue upper = .ok v.upper) (q : ℚ) :
    v.Allows q ↔ v.kind.Takes q ∧ Bound.AsksLower lower q ∧ Bound.AsksUpper upper q := by
  have low : (∀ x, v.lower = some x → x.AtMost q) ↔ Bound.AsksLower lower q :=
    Bound.respected_iff_asks exactLower isLower (by decide) (fun _ => Number.atMost_int)
      (fun word mem => iff_of_false (Number.not_atMost_infinity q) (by revert word; decide))
      fun word mem => iff_of_true (Number.atMost_negInfinity q) mem
  have high : (∀ x, v.upper = some x → x.AtLeast q) ↔ Bound.AsksUpper upper q :=
    Bound.respected_iff_asks exactUpper isUpper (by decide) (fun _ => Number.atLeast_int)
      (fun word mem => iff_of_true (Number.atLeast_infinity q) mem)
      fun word mem => iff_of_false (Number.not_atLeast_negInfinity q) (by revert word; decide)
  rw [← low, ← high]
  obtain ⟨noBounds, -⟩ := Bound.check_ok checked
  by_cases binary : v.kind = .binary
  · obtain ⟨lower, upper⟩ := noBounds binary
    rw [v.allows_binary binary, binary, lower, upper]
    simp [VariableKind.Takes]
  have bounds := v.bounds_of_ne_binary binary
  have kind : v.kind.Admits q ↔ v.kind.Takes q := by
    cases known : v.kind with
    | binary => exact absurd known binary
    | continuous | integer => exact Iff.rfl
  have fromBelow : v.bounds.1.AtMost q ↔ ∀ x, v.lower = some x → x.AtMost q := by
    rw [bounds]
    cases v.lower with
    | none => exact iff_of_true (Number.atMost_negInfinity q) (by simp)
    | some => simp
  have fromAbove : v.bounds.2.AtLeast q ↔ ∀ x, v.upper = some x → x.AtLeast q := by
    rw [bounds]
    cases v.upper with
    | none => exact iff_of_true (Number.atLeast_infinity q) (by simp)
    | some => simp
  rw [← kind, ← fromBelow, ← fromAbove]
  exact ⟨fun allows => ⟨allows.kind, allows.lower, allows.upper⟩,
    fun asked => ⟨asked.2.1, asked.2.2, asked.1⟩⟩

end Variable

end LinearProgram
