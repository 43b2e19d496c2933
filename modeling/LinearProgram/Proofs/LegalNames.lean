import LinearProgram.Proofs.Names

/-!
# Legal names are what naming gives and keeps

A legal name (`Name.IsLegalName`) has at least one and at most so many characters, all allowed in LP
names, and no numeric start. A cut keeps such a start (`looksNumeric_of_isPrefix`), and a bracket
makes no number of a family (`looksNumeric_append`).
-/

namespace LinearProgram.Name

open List

variable {c : Char} {limit : Int} {s t : List Char}

/-! ## Legality -/

/-- An ASCII letter or digit, an underscore, or a sign that LP names may hold. -/
def IsAllowed (c : Char) : Prop :=
  c.isAlphanum = true ∨ c ∈ "_!\"#$%&()/,.;?@'`\x7b\x7d|~".toList

/-- A name of at most `limit` characters that LP text can hold as it is. -/
structure IsLegalName (limit : Int) (s : List Char) : Prop where
  nonempty : s ≠ []
  short : (s.length : Int) ≤ limit
  allowed : ∀ c ∈ s, IsAllowed c
  /-- It starts neither with a digit nor with a period. -/
  start : ∀ c rest, s = c :: rest → c.isDigit = false ∧ c ≠ '.'
  /-- It does not start like an exponent. -/
  exponent : ∀ e d rest, s = e :: d :: rest → e = 'e' ∨ e = 'E' → d.isDigit = false

theorem isLegal_iff : isLegal c = true ↔ IsAllowed c := by
  have listed : "_!\"#$%&()/,.;?@'`\x7b\x7d|~".toList = '_' :: signs := by decide
  rw [IsAllowed, listed, mem_cons, isLegal, Bool.or_eq_true, Bool.or_eq_true, beq_iff_eq,
    contains_iff_mem, or_assoc]

/-- A text is taken for a number unless its start is neither digit or period nor exponent. -/
theorem looksNumeric_eq_false :
    looksNumeric s = false ↔ (∀ c rest, s = c :: rest → c.isDigit = false ∧ c ≠ '.')
      ∧ ∀ e d rest, s = e :: d :: rest → e = 'e' ∨ e = 'E' → d.isDigit = false := by
  fun_cases looksNumeric s with
  | case1 d rest => simp
  | case2 d rest => simp
  | case3 c rest noSmall noLarge =>
    rw [Bool.or_eq_false_iff, beq_eq_false_iff_ne]
    constructor
    · intro plain
      refine ⟨?_, ?_⟩
      · rintro _ _ ⟨⟩
        exact plain
      · rintro e d more ⟨⟩ (rfl | rfl)
        · exact (noSmall d more rfl rfl).elim
        · exact (noLarge d more rfl rfl).elim
    · exact fun plain => plain.1 c rest rfl
  | case4 => simp

theorem isLegalName_iff :
    IsLegalName limit s ↔ s ≠ [] ∧ (s.length : Int) ≤ limit ∧ (∀ c ∈ s, isLegal c = true)
      ∧ looksNumeric s = false := by
  simp only [isLegal_iff, looksNumeric_eq_false]
  constructor
  · rintro ⟨nonempty, short, allowed, start, exponent⟩
    exact ⟨nonempty, short, allowed, start, exponent⟩
  · rintro ⟨nonempty, short, allowed, start, exponent⟩
    exact ⟨nonempty, short, allowed, start, exponent⟩

/-! ## Cutting and joining -/

theorem length_cut_le (positive : 0 < limit) (s : List Char) :
    ((cut limit s).length : Int) ≤ limit := by
  rw [cut, if_neg (by omega), length_take]
  omega

theorem looksNumeric_of_isPrefix (initial : s <+: t) (plain : looksNumeric t = false) :
    looksNumeric s = false := by
  obtain ⟨rest, rfl⟩ := initial
  rw [looksNumeric_eq_false] at plain ⊢
  refine ⟨fun c more isStart => ?_, fun e d more isStart => ?_⟩
  · exact plain.1 c (more ++ rest) (by rw [isStart, cons_append])
  · exact plain.2 e d (more ++ rest) (by rw [isStart, cons_append, cons_append])

/-- What follows a text makes no number of it, unless it starts with a digit. -/
theorem looksNumeric_append (nonempty : s ≠ []) (plain : looksNumeric s = false)
    (next : ∀ c ∈ t.head?, c.isDigit = false) : looksNumeric (s ++ t) = false := by
  rw [looksNumeric_eq_false] at plain ⊢
  obtain ⟨first, rest, rfl⟩ := exists_cons_of_ne_nil nonempty
  refine ⟨?_, ?_⟩
  · rintro c more ⟨⟩
    exact plain.1 first rest rfl
  · intro e d more isStart isExponent
    cases rest with
    | nil =>
      obtain ⟨rfl, rfl⟩ : first = e ∧ t = d :: more := by simpa using isStart
      exact next d rfl
    | cons second rest =>
      obtain ⟨rfl, rfl, -⟩ : first = e ∧ second = d ∧ rest ++ t = more := by simpa using isStart
      exact plain.2 first second rest rfl isExponent

/-! ## Sanitizing -/

theorem looksNumeric_sanitizeChars (limit : Int) (name : List Char) :
    looksNumeric (sanitizeChars limit name) = false := by
  refine looksNumeric_of_isPrefix (cut_isPrefix limit _) ?_
  split
  case isTrue => rfl
  case isFalse plain =>
    simp only [Bool.or_eq_true, not_or, Bool.not_eq_true] at plain
    exact plain.2

theorem sanitize_legal (positive : 0 < limit) (name : String) :
    IsLegalName limit (sanitize limit name).toList := by
  rw [isLegalName_iff, sanitize, String.toList_ofList]
  exact ⟨sanitizeChars_ne_nil positive _, length_cut_le positive _,
    (isName_sanitizeChars limit _).legal, looksNumeric_sanitizeChars limit _⟩

/-- Exactly the legal names are left as they are. -/
theorem sanitize_eq_self_iff (positive : 0 < limit) {name : String} :
    sanitize limit name = name ↔ IsLegalName limit name.toList := by
  constructor
  · intro same
    rw [← same]
    exact sanitize_legal positive name
  · intro legal
    obtain ⟨nonempty, short, allowed, plain⟩ := isLegalName_iff.mp legal
    rw [String.length_toList] at short
    exact sanitize_eq_self allowed nonempty plain short

/-! ## Instances -/

theorem looksNumeric_fullName (positive : 0 < limit) (key : VarKey) :
    looksNumeric (fullName limit key).toList = false := by
  obtain ⟨nonempty, -, -, plain⟩ := isLegalName_iff.mp (sanitize_legal positive key.family)
  simp only [fullName, String.toList_append, append_assoc]
  refine looksNumeric_append nonempty plain ?_
  rintro c ⟨⟩
  decide

theorem ofKey_legal (positive : 0 < limit) (key : VarKey) :
    IsLegalName limit (ofKey limit key).toList := by
  refine isLegalName_iff.mpr ⟨ofKey_ne_empty positive key, ?_, (isName_ofKey limit key).legal, ?_⟩
  · unfold ofKey
    split
    · exact (sanitize_legal positive key.family).short
    · dsimp only
      split
      · rw [String.toList_ofList]
        exact length_cut_le positive _
      case isFalse short =>
        rw [String.length_toList]
        exact Int.not_lt.mp short
  · unfold ofKey
    split
    · exact (isLegalName_iff.mp (sanitize_legal positive key.family)).2.2.2
    · dsimp only
      split
      · rw [String.toList_ofList]
        exact looksNumeric_of_isPrefix (cut_isPrefix limit _) (looksNumeric_fullName positive key)
      · exact looksNumeric_fullName positive key

/-- **Sanitizing gives legal names and leaves exactly these as they are.** With room for at least
one character, every text becomes a legal name, which stays as it is if it is sanitized once more,
and a text stays as it is if and only if it is a legal name already. The name of every instance of
a variable family is legal as well. -/
theorem names_legal (limit : Int) (positive : 1 ≤ limit) (name : String) (key : VarKey) :
    IsLegalName limit (sanitize limit name).toList
      ∧ sanitize limit (sanitize limit name) = sanitize limit name
      ∧ (sanitize limit name = name ↔ IsLegalName limit name.toList)
      ∧ IsLegalName limit (ofKey limit key).toList := by
  have given := sanitize_legal positive name
  exact ⟨given, (sanitize_eq_self_iff positive).mpr given, sanitize_eq_self_iff positive,
    ofKey_legal positive key⟩

/-- A family whose name needs a first character of its own, so that its instances have no room left
for the whole index. -/
theorem exponent_named :
    sanitize 6 "e1 rate" = "_e1_ra" ∧ ofKey 6 ⟨"e1", [.str "a,b", .str ""]⟩ = "_e1(a_"
      ∧ IsLegalName 6 (ofKey 6 ⟨"e1", [.str "a,b", .str ""]⟩).toList
      ∧ ¬IsLegalName 6 "e1 rate".toList := by
  have named := names_legal 6 (by decide) "e1 rate" ⟨"e1", [.str "a,b", .str ""]⟩
  have changed : sanitize 6 "e1 rate" = "_e1_ra" := by decide
  refine ⟨changed, by decide, named.2.2.2, fun legal => ?_⟩
  exact absurd (changed.symm.trans (named.2.2.1.mpr legal)) (by decide)

end LinearProgram.Name
