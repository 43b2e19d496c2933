import LinearProgram.Model.Name
import LinearProgram.Proofs.Keys

/-!
# What LP names look like

A name that is made legal consists of legal characters and starts with no digit (`Name.IsName`). A
text that is a short name already stays as it is (`Name.sanitize_eq_self`), and so does the form of
a numbered instance (`Name.ofKey_numbered`).
-/

namespace LinearProgram

open List

variable {c : Char} {limit : Int} {s t : List Char} {index : List Nat} {family : String}

/-! ## Digits -/

namespace Decimal

theorem toList_digitText (n : Nat) : (digitText n).toList = Nat.toDigits 10 n := by
  simp [digitText]

theorem toString_eq_digitText (n : Nat) : toString n = digitText n := by
  show Nat.repr n = digitText n
  rw [Nat.repr_eq_ofList_toDigits, digitText]

theorem digitText_inj {m n : Nat} (same : digitText m = digitText n) : m = n := by
  have digits : Nat.toDigits 10 m = Nat.toDigits 10 n := by
    rw [← toList_digitText, same, toList_digitText]
  calc m = Nat.ofDigitChars 10 (Nat.toDigits 10 m) 0 := Nat.ofDigitChars_ten_toDigits.symm
    _ = Nat.ofDigitChars 10 (Nat.toDigits 10 n) 0 := by rw [digits]
    _ = n := Nat.ofDigitChars_ten_toDigits

theorem isDigit_of_mem {n : Nat} (mem : c ∈ (digitText n).toList) : c.isDigit = true := by
  rw [toList_digitText] at mem
  exact Nat.isDigit_of_mem_toDigits (by decide) (by decide) mem

theorem digitText_ne_nil (n : Nat) : (digitText n).toList ≠ [] := by
  rw [toList_digitText]
  exact Nat.toDigits_ne_nil

theorem not_mem_digitText (sign : c.isDigit = false) (n : Nat) : c ∉ (digitText n).toList := by
  intro mem
  rw [isDigit_of_mem mem] at sign
  cases sign

end Decimal

namespace Name

/-! ## Legal characters -/

theorem isLegal_of_isLegalInIndex (legal : isLegalInIndex c = true) : isLegal c = true := by
  simp only [isLegalInIndex, Bool.and_eq_true] at legal
  exact legal.1.1.1

theorem isLegalInIndex_of_isDigit (digit : c.isDigit = true) : isLegalInIndex c = true := by
  have other : ∀ {d : Char}, d.isDigit = false → c ≠ d := by
    rintro d noDigit rfl
    rw [digit] at noDigit
    cases noDigit
  have bracket : c ≠ '(' := other (by decide)
  have bracket' : c ≠ ')' := other (by decide)
  have comma : c ≠ ',' := other (by decide)
  simp [isLegalInIndex, isLegal, Char.isAlphanum, digit, bracket, bracket', comma]

theorem legal_of_mem_mask {legal : Char → Bool} (underscore : legal '_' = true) {s : List Char}
    {c : Char} (mem : c ∈ mask legal s) : legal c = true := by
  obtain ⟨d, -, rfl⟩ := mem_map.mp mem
  split
  · assumption
  · exact underscore

theorem mask_eq_self {legal : Char → Bool} (all : ∀ c ∈ s, legal c = true) : mask legal s = s := by
  conv_rhs => rw [← map_id s]
  refine map_congr_left fun c mem => ?_
  rw [if_pos (all c mem), id]

theorem cut_isPrefix (limit : Int) (s : List Char) : cut limit s <+: s := by
  unfold cut
  split
  · exact take_prefix _ _
  · exact take_prefix _ _

theorem cut_eq_self (fits : (s.length : Int) ≤ limit) : cut limit s = s := by
  rw [cut, if_neg (by omega), take_of_length_le (by omega)]

theorem cut_ne_nil (positive : 0 < limit) {s : List Char} (nonempty : s ≠ []) :
    cut limit s ≠ [] := by
  rw [cut, if_neg (by omega)]
  simp only [ne_eq, take_eq_nil_iff, not_or]
  exact ⟨by omega, nonempty⟩

/-! ## Names -/

/-- Legal characters, the first of them no digit. -/
structure IsName (s : List Char) : Prop where
  legal : ∀ c ∈ s, isLegal c = true
  start : ∀ c ∈ s.head?, c.isDigit = false

theorem IsName.of_isPrefix (name : IsName t) (initial : s <+: t) : IsName s where
  legal c mem := name.legal c (initial.subset mem)
  start c first := by
    obtain ⟨rest, rfl⟩ := initial
    refine name.start c ?_
    rw [head?_append, first]
    rfl

theorem IsName.append (name : IsName s) (legal : ∀ c ∈ t, isLegal c = true)
    (start : ∀ c ∈ t.head?, c.isDigit = false) : IsName (s ++ t) where
  legal c mem := (mem_append.mp mem).elim (name.legal c) (legal c)
  start c first := by
    cases s with
    | nil => exact start c first
    | cons => exact name.start c first

/-- What does not look like a number does not start with a digit. -/
theorem start_of_looksNumeric (plain : looksNumeric s = false) :
    ∀ c ∈ s.head?, c.isDigit = false := by
  unfold looksNumeric at plain
  split at plain
  case h_1 | h_2 =>
    rintro c ⟨⟩
    decide
  case h_3 =>
    rintro c ⟨⟩
    rw [Bool.or_eq_false_iff] at plain
    exact plain.1
  case h_4 => rintro c ⟨⟩

theorem isName_sanitizeChars (limit : Int) (name : List Char) :
    IsName (sanitizeChars limit name) := by
  have legal : ∀ c ∈ mask isLegal name, isLegal c = true :=
    fun c mem => legal_of_mem_mask (by decide) mem
  refine IsName.of_isPrefix ?_ (cut_isPrefix limit _)
  split
  case isTrue =>
    refine ⟨fun c mem => ?_, fun c first => ?_⟩
    · rcases mem_cons.mp mem with rfl | other
      · decide
      · exact legal c other
    · cases first
      decide
  case isFalse plain =>
    simp only [Bool.or_eq_true, not_or, Bool.not_eq_true] at plain
    exact ⟨legal, start_of_looksNumeric plain.2⟩

theorem sanitizeChars_ne_nil (positive : 0 < limit) (name : List Char) :
    sanitizeChars limit name ≠ [] := by
  refine cut_ne_nil positive ?_
  split
  · exact cons_ne_nil _ _
  case isFalse plain =>
    simp only [Bool.or_eq_true, not_or, Bool.not_eq_true, isEmpty_eq_false_iff] at plain
    exact plain.1

theorem isName_sanitize (limit : Int) (name : String) : IsName (sanitize limit name).toList := by
  simpa [sanitize] using isName_sanitizeChars limit name.toList

theorem sanitize_ne_empty (positive : 0 < limit) (name : String) :
    (sanitize limit name).toList ≠ [] := by
  simpa [sanitize] using sanitizeChars_ne_nil positive name.toList

theorem isLegal_of_mem_indexParts {index : List Value} {part : String}
    (mem : part ∈ indexParts index) {c : Char} (inside : c ∈ part.toList) :
    isLegal c = true := by
  obtain ⟨v, -, rfl⟩ := mem_map.mp mem
  simp only at inside
  split at inside
  · rw [mem_singleton.mp inside]
    decide
  · rw [sanitizeIndex, String.toList_ofList] at inside
    exact isLegal_of_isLegalInIndex (legal_of_mem_mask (by decide) inside)

theorem isLegal_of_mem_intercalate {parts : List String}
    (legal : ∀ part ∈ parts, ∀ c ∈ part.toList, isLegal c = true) :
    ∀ c ∈ (",".intercalate parts).toList, isLegal c = true := by
  intro c mem
  rw [String.toList_intercalate] at mem
  induction parts with
  | nil => cases mem
  | cons part rest ih =>
    cases rest with
    | nil =>
      simp only [map_cons, map_nil, intercalate_singleton] at mem
      exact legal part mem_cons_self c mem
    | cons =>
      rw [map_cons, map_cons, intercalate_cons_cons, mem_append,
        mem_append] at mem
      rcases mem with (first | comma) | later
      · exact legal part mem_cons_self c first
      · rw [mem_singleton.mp comma]
        decide
      · exact ih (fun part mem => legal part (mem_cons_of_mem _ mem)) later

theorem isName_fullName (limit : Int) (key : VarKey) : IsName (fullName limit key).toList := by
  have bracket : ∀ {c d : Char}, isLegal d = true → c ∈ [d] → isLegal c = true := by
    intro c d legal mem
    rwa [mem_singleton.mp mem]
  simp only [fullName, String.toList_append, append_assoc]
  refine (isName_sanitize limit key.family).append ?_ ?_
  · intro c mem
    rcases mem_append.mp mem with first | later
    · exact bracket (by decide) first
    · rcases mem_append.mp later with inside | last
      · exact isLegal_of_mem_intercalate (fun part => isLegal_of_mem_indexParts) c inside
      · exact bracket (by decide) last
  · rintro c ⟨⟩
    decide

theorem isName_ofKey (limit : Int) (key : VarKey) : IsName (ofKey limit key).toList := by
  unfold ofKey
  split
  · exact isName_sanitize limit key.family
  · dsimp only
    split
    · rw [String.toList_ofList]
      exact (isName_fullName limit key).of_isPrefix (cut_isPrefix limit _)
    · exact isName_fullName limit key

theorem ofKey_ne_empty (positive : 0 < limit) (key : VarKey) : (ofKey limit key).toList ≠ [] := by
  have full : (fullName limit key).toList ≠ [] := by
    simp [fullName]
  unfold ofKey
  split
  · exact sanitize_ne_empty positive key.family
  · dsimp only
    split
    · rw [String.toList_ofList]
      exact cut_ne_nil positive full
    · exact full

/-! ## Texts that stay as they are -/

/-- A short legal name stays as it is. -/
theorem sanitize_eq_self {name : String} (legal : ∀ c ∈ name.toList, isLegal c = true)
    (nonempty : name.toList ≠ []) (plain : looksNumeric name.toList = false)
    (fits : (name.length : Int) ≤ limit) : sanitize limit name = name := by
  have chars : (name.toList.length : Int) ≤ limit := by rwa [String.length_toList]
  have proper : name.toList.isEmpty = false := by simpa using nonempty
  rw [sanitize, sanitizeChars, mask_eq_self legal]
  simp only [proper, plain, Bool.or_self, Bool.false_eq_true, if_false]
  rw [cut_eq_self chars, String.ofList_toList]

theorem family_isPrefix_ofKey {key : VarKey} (same : sanitize limit key.family = key.family)
    (fits : (key.family.length : Int) ≤ limit) :
    key.family.toList <+: (ofKey limit key).toList := by
  have begins : key.family.toList <+: (fullName limit key).toList := by
    simp only [fullName, same, String.toList_append, append_assoc]
    exact prefix_append _ _
  unfold ofKey
  split
  · rw [same]
  · dsimp only
    split
    · rw [String.toList_ofList, cut, if_neg (by omega)]
      refine prefix_of_prefix_length_le begins ( take_prefix _ _) ?_
      simp only [String.length_toList, length_take]
      simp only [Int.ofNat_eq_natCast] at *
      omega
    · exact begins

end Name

/-! ## Numbered instances -/

/-- Texts that agree up to the end agree on both sides of the first occurrence of a character. -/
theorem append_cons_inj_of_first {a : Char} {x y z w : List Char} (first : a ∉ x) (first' : a ∉ y)
    (same : x ++ a :: z = y ++ a :: w) : x = y ∧ z = w := by
  induction x generalizing y with
  | nil =>
    cases y with
    | nil => exact ⟨rfl, (List.cons.inj same).2⟩
    | cons => exact absurd (List.cons.inj same).1 fun h => first' (h ▸ mem_cons_self)
  | cons b x ih =>
    cases y with
    | nil => exact absurd (List.cons.inj same).1 fun h => first (h ▸ mem_cons_self)
    | cons =>
      obtain ⟨head, tail⟩ := List.cons.inj same
      obtain ⟨left, right⟩ := ih (fun h => first (mem_cons_of_mem _ h))
        (fun h => first' (mem_cons_of_mem _ h)) tail
      exact ⟨by rw [head, left], right⟩

namespace VarKey

theorem text_int (n : Nat) : (Value.int n).text = Decimal.digitText n := by
  show (if (n : Int) < 0 then "-" ++ Decimal.digitText (n : Int).natAbs
    else Decimal.digitText (n : Int).natAbs) = _
  rw [if_neg (by omega), Int.natAbs_natCast]

theorem text_numbered (nonempty : index ≠ []) :
    (numbered family index).text
      = family ++ "(" ++ ",".intercalate (index.map Decimal.digitText) ++ ")" := by
  have texts : (index.map fun (n : Nat) => Value.int n).map Value.text
      = index.map Decimal.digitText := by
    rw [map_map]
    exact map_congr_left fun n _ => text_int n
  rw [text, if_neg (by simpa [numbered] using nonempty), numbered, texts]

theorem text_numbered_inj {family' : String} {index' : List Nat} (nonempty : index ≠ [])
    (nonempty' : index' ≠ []) (plain : '(' ∉ family.toList) (plain' : '(' ∉ family'.toList)
    (same : (numbered family index).text = (numbered family' index').text) :
    family = family' ∧ index = index' := by
  rw [text_numbered nonempty, text_numbered nonempty', ← String.toList_inj] at same
  simp only [String.toList_append, append_assoc, String.toList_intercalate,
    map_map] at same
  obtain ⟨families, rest⟩ := append_cons_inj_of_first plain plain' same
  refine ⟨String.toList_inj.mp families, ?_⟩
  have parts := append_cancel_right
    (show List.intercalate [','] _ ++ [')'] = List.intercalate [','] _ ++ [')'] from rest)
  have noComma : ∀ {l : List Nat}, ∀ part ∈ l.map (String.toList ∘ Decimal.digitText),
      ',' ∉ part := by
    intro l part mem
    obtain ⟨n, -, rfl⟩ := mem_map.mp mem
    exact Decimal.not_mem_digitText (by decide) n
  have split := congrArg (List.splitOn ',') parts
  rw [splitOn_intercalate _ noComma (by simpa),
    splitOn_intercalate _ noComma (by simpa)] at split
  refine map_injective_iff.mpr ?_ split
  intro m n equal
  exact Decimal.digitText_inj (String.toList_inj.mp equal)

end VarKey

/-- The LP name of a numbered instance is its readable form, if that is short enough. -/
theorem Name.ofKey_numbered (nonempty : index ≠ []) (same : sanitize limit family = family)
    (fits : ((VarKey.numbered family index).text.length : Int) ≤ limit) :
    ofKey limit (VarKey.numbered family index) = (VarKey.numbered family index).text := by
  have parts : indexParts (VarKey.numbered family index).index = index.map Decimal.digitText := by
    simp only [indexParts, VarKey.numbered, map_map]
    refine map_congr_left fun n _ => ?_
    have digits : sanitizeIndex (Value.int n).text = Decimal.digitText n := by
      rw [VarKey.text_int, sanitizeIndex, mask_eq_self, String.ofList_toList]
      exact fun c mem => isLegalInIndex_of_isDigit (Decimal.isDigit_of_mem mem)
    have proper : (Decimal.digitText n).isEmpty = false := by
      have := Decimal.digitText_ne_nil n
      simpa using this
    simp only [Function.comp, digits, proper, Bool.false_eq_true, if_false]
  have full : fullName limit (VarKey.numbered family index)
      = (VarKey.numbered family index).text := by
    rw [fullName, parts, VarKey.text_numbered nonempty]
    simp only [VarKey.numbered, same]
  rw [ofKey, if_neg (by simpa [VarKey.numbered] using nonempty), full]
  simp only [Int.ofNat_eq_natCast]
  rw [if_neg (by omega)]

end LinearProgram
