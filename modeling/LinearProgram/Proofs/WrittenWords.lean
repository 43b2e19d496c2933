import LinearProgram.Expr.Build
import LinearProgram.Proofs.Names

/-!
# Reading written values back

The words that written trees are made of can be read off the front of a text: names, whole numbers,
and texts in quotes with their escapes. A list of such parts is read as long as a comma follows.
-/

namespace LinearProgram.Written

open List Quoted Surrogate

variable {c : Char} {rest : List Char}

/-- What reads something off the front of a text: it answers with what it read and the rest. -/
abbrev Reader (α : Type) := List Char → Option (α × List Char)

def skip : List Char → List Char → Option (List Char)
  | [], cs => some cs
  | w :: word, c :: cs => if w = c then skip word cs else none
  | _ :: _, [] => none

@[simp] theorem skip_append (word rest : List Char) : skip word (word ++ rest) = some rest := by
  induction word with
  | nil => rfl
  | cons _ _ ih =>
    rw [cons_append, skip, if_pos rfl]
    exact ih

/-! ## Names and whole numbers -/

/-- A letter or underscore, then letters, digits and underscores. -/
def isName (name : String) : Bool :=
  match name.toList with
  | [] => false
  | c :: rest => Expr.isNameStart c && rest.all Expr.isNameChar

def readName (cs : List Char) : String × List Char :=
  (String.ofList (cs.takeWhile Expr.isNameChar), cs.dropWhile Expr.isNameChar)

/-- The next character, if there is one, fails a test. -/
def Stops (test : Char → Bool) (cs : List Char) : Prop := ∀ c ∈ cs.head?, test c = false

theorem stops_cons {test : Char → Bool} {cs : List Char} :
    Stops test (c :: cs) ↔ test c = false := by
  simp [Stops]

theorem span_append {test : Char → Bool} {word : List Char} (all : ∀ c ∈ word, test c = true)
    (stops : Stops test rest) :
    (word ++ rest).takeWhile test = word ∧ (word ++ rest).dropWhile test = rest := by
  rw [takeWhile_append_of_pos all, dropWhile_append_of_pos all]
  cases rest with
  | nil => simp
  | cons c =>
    have fails := stops c rfl
    simp [fails]

theorem isNameChar_of_isNameStart (start : Expr.isNameStart c = true) :
    Expr.isNameChar c = true := by
  simp only [Expr.isNameStart, Expr.isNameChar, Char.isAlphanum, Bool.or_eq_true] at start ⊢
  tauto

/-- A name begins with a character that a number cannot begin with. -/
theorem isName_cons {name : String} (named : isName name = true) :
    ∃ c rest, name.toList = c :: rest ∧ Expr.isNameStart c = true
      ∧ ∀ d ∈ name.toList, Expr.isNameChar d = true := by
  unfold isName at named
  split at named
  · cases named
  case h_2 c rest chars =>
    rw [Bool.and_eq_true, all_eq_true] at named
    refine ⟨c, rest, chars, named.1, ?_⟩
    rw [chars]
    exact forall_mem_cons.mpr ⟨isNameChar_of_isNameStart named.1, named.2⟩

theorem readName_append {name : String} (named : isName name = true)
    (stops : Stops Expr.isNameChar rest) : readName (name.toList ++ rest) = (name, rest) := by
  obtain ⟨-, -, -, -, all⟩ := isName_cons named
  obtain ⟨taken, left⟩ := span_append all stops
  rw [readName, taken, left, String.ofList_toList]

def readDigits (cs : List Char) : Nat × List Char :=
  (Nat.ofDigitChars 10 (cs.takeWhile Char.isDigit) 0, cs.dropWhile Char.isDigit)

theorem readDigits_append (n : Nat) (stops : Stops Char.isDigit rest) :
    readDigits ((Decimal.digitText n).toList ++ rest) = (n, rest) := by
  obtain ⟨taken, left⟩ := span_append (fun c => Decimal.isDigit_of_mem) stops
  rw [readDigits, taken, left, Decimal.toList_digitText, Nat.ofDigitChars_ten_toDigits]

/-! ## Texts in quotes -/

/-- The value of a hexadecimal digit. -/
def hexValue (c : Char) : Nat := if c.isDigit then c.toNat - 48 else c.toNat - 87

def readHex (digits : List Char) : Nat := digits.foldl (fun n c => 16 * n + hexValue c) 0

theorem readHex_append (digits : List Char) (c : Char) :
    readHex (digits ++ [c]) = 16 * readHex digits + hexValue c := by
  simp [readHex]

theorem hexValue_digitChar {n : Nat} (small : n < 16) : hexValue n.digitChar = n := by
  interval_cases n <;> rfl

theorem readHex_toDigits (n : Nat) : readHex (Nat.toDigits 16 n) = n := by
  induction n using Nat.strongRecOn with
  | ind n ih =>
    rcases Nat.lt_or_ge n 16 with small | large
    · rw [Nat.toDigits_of_lt_base small, ← nil_append [n.digitChar], readHex_append,
        hexValue_digitChar small]
      exact Nat.zero_add n
    · have quotient : n / 16 < n := by omega
      rw [Nat.toDigits_of_base_le (by decide) large, readHex_append, ih _ quotient,
        hexValue_digitChar (by omega)]
      omega

/-- Leading zeros count for nothing. -/
theorem readHex_zeros (k : Nat) (digits : List Char) :
    readHex (List.replicate k '0' ++ digits) = readHex digits := by
  induction k with
  | zero => rfl
  | succ k ih => exact ih

theorem hex_spec {width n : Nat} (positive : 0 < width) (fits : n < 16 ^ width) :
    (hex width n).length = width ∧ readHex (hex width n) = n := by
  have short := (Nat.length_toDigits_le_iff (by decide) positive).mpr fits
  unfold hex
  dsimp only
  rw [length_append, length_replicate, readHex_zeros, readHex_toDigits]
  omega

theorem isHalf_iff (n : Nat) :
    (isHigh n || isLow n) = true ↔ 0xD800 ≤ n ∧ n < 0xE000 := by
  simp only [isHigh, isLow, Bool.or_eq_true, Bool.and_eq_true,
    decide_eq_true_eq]
  omega

/-- A character is known by the code that it shows. -/
theorem charOf_code (c : Char) :
    charOf (code c) = c ∧ code c < 0x110000 := by
  have valid : c.toNat < 0xd800 ∨ 0xdfff < c.toNat ∧ c.toNat < 0x110000 := c.valid
  unfold code
  split
  case isTrue far =>
    obtain ⟨k, isFar⟩ := Nat.exists_eq_add_of_le far
    have few : k < 0x800 := by
      unfold Surrogate.first at isFar
      omega
    have half := (isHalf_iff (0xD800 + k)).mpr ⟨Nat.le_add_right _ _, by omega⟩
    rw [isFar, Nat.add_sub_cancel_left]
    refine ⟨?_, by omega⟩
    rw [charOf, if_pos half, Surrogate.carrier, Nat.add_sub_cancel_left, ← isFar,
      Char.ofNat_toNat]
  case isFalse =>
    have whole : ¬ (isHigh c.toNat || isLow c.toNat) = true := by
      rw [isHalf_iff]
      omega
    refine ⟨?_, by omega⟩
    rw [charOf, if_neg whole, Char.ofNat_toNat]

def readEscape : Reader Char
  | 'n' :: cs => some ('\n', cs)
  | 'r' :: cs => some ('\r', cs)
  | 't' :: cs => some ('\t', cs)
  | 'x' :: cs => some (charOf (readHex (cs.take 2)), cs.drop 2)
  | 'u' :: cs => some (charOf (readHex (cs.take 4)), cs.drop 4)
  | 'U' :: cs => some (charOf (readHex (cs.take 8)), cs.drop 8)
  | c :: cs => some (c, cs)
  | [] => none

theorem readHex_hex {width : Nat} (positive : 0 < width) (fits : code c < 16 ^ width)
    (rest : List Char) :
    some (charOf (readHex ((hex width (code c) ++ rest).take width)),
      (hex width (code c) ++ rest).drop width) = some (c, rest) := by
  obtain ⟨length, value⟩ := hex_spec positive fits
  rw [take_left' length, drop_left' length, value, (charOf_code c).1]

/-- A character between quotes stands for itself, or is read behind a backslash. -/
theorem escape_cases {quote : Char} (isQuote : quote = '\'' ∨ quote = '"') (c : Char) :
    (escape quote c = [c] ∧ c ≠ quote ∧ c ≠ '\\')
      ∨ ∃ shown, escape quote c = '\\' :: shown
        ∧ ∀ rest, readEscape (shown ++ rest) = some (c, rest) := by
  unfold escape
  split
  case isTrue marked =>
    refine .inr ⟨[c], rfl, fun rest => ?_⟩
    rcases marked with rfl | rfl
    · rcases isQuote with rfl | rfl <;> rfl
    · rfl
  case isFalse unmarked =>
    rw [not_or] at unmarked
    split
    case isTrue isNewline => exact .inr ⟨_, rfl, fun rest => by rw [isNewline]; rfl⟩
    split
    case isTrue isReturn => exact .inr ⟨_, rfl, fun rest => by rw [isReturn]; rfl⟩
    split
    case isTrue isTab => exact .inr ⟨_, rfl, fun rest => by rw [isTab]; rfl⟩
    split
    case isTrue => exact .inl ⟨rfl, unmarked⟩
    dsimp only
    split
    case isTrue small => exact .inr ⟨_, rfl, readHex_hex (by decide) small⟩
    split
    case isTrue small => exact .inr ⟨_, rfl, readHex_hex (by decide) small⟩
    have small := (charOf_code c).2
    exact .inr ⟨_, rfl, readHex_hex (by decide) (by omega)⟩

/-- Read the characters up to a quote. Each costs one unit of fuel. -/
def readChars (quote : Char) : Nat → Reader (List Char)
  | fuel + 1, c :: cs =>
    if c = quote then some ([], cs)
    else do
      let (d, cs) ← if c = '\\' then readEscape cs else some (c, cs)
      let (ds, cs) ← readChars quote fuel cs
      pure (d :: ds, cs)
  | _, _ => none

theorem readChars_append {quote : Char} (isQuote : quote = '\'' ∨ quote = '"') (s rest : List Char)
    {fuel : Nat} (enough : s.length < fuel) :
    readChars quote fuel (s.flatMap (escape quote) ++ quote :: rest) = some (s, rest) := by
  induction s generalizing fuel with
  | nil =>
    obtain ⟨fuel, rfl⟩ := Nat.exists_eq_succ_of_ne_zero (Nat.ne_of_gt enough)
    simp [readChars]
  | cons c s ih =>
    obtain ⟨fuel, rfl⟩ := Nat.exists_eq_succ_of_ne_zero (Nat.ne_of_gt (Nat.lt_of_le_of_lt
      (Nat.zero_le _) enough))
    have later := ih (Nat.lt_of_succ_lt_succ enough)
    rcases escape_cases isQuote c with ⟨shown, noQuote, noMark⟩ | ⟨shown, escaped, read⟩
    · simp [shown, readChars, noQuote, noMark, later]
    · have noQuote : '\\' ≠ quote := by
        rcases isQuote with rfl | rfl <;> decide
      simp [escaped, readChars, noQuote, read, later]

/-! ## Values -/

/-- A whole number or a text. -/
def isWord : Value → Bool
  | .number (.int _) | .str _ => true
  | _ => false

def readValue : Reader Value
  | [] => none
  | c :: cs =>
    if c = '-' then
      let (n, cs) := readDigits cs
      some (.int (-n), cs)
    else if c = '\'' ∨ c = '"' then do
      let (s, cs) ← readChars c (cs.length + 1) cs
      pure (.str (String.ofList s), cs)
    else if c.isDigit then
      let (n, cs) := readDigits (c :: cs)
      some (.int n, cs)
    else none

theorem length_le_flatMap_escape (quote : Char) (s : List Char) :
    s.length ≤ (s.flatMap (escape quote)).length := by
  induction s with
  | nil => exact Nat.le_refl 0
  | cons c =>
    have nonempty : 0 < (escape quote c).length := by
      unfold escape
      dsimp only
      split_ifs <;> simp
    rw [flatMap_cons, length_append, length_cons]
    omega

theorem quoteFor_cases (s : List Char) : quoteFor s = '\'' ∨ quoteFor s = '"' := by
  unfold quoteFor
  split
  · exact .inr rfl
  · exact .inl rfl

theorem toList_quote (s : String) (rest : List Char) :
    (quote s).toList ++ rest = quoteFor s.toList
      :: (s.toList.flatMap (escape (quoteFor s.toList))
        ++ quoteFor s.toList :: rest) := by
  simp [quote]

theorem readValue_quote (s : String) (rest : List Char) :
    readValue ((quote s).toList ++ rest) = some (.str s, rest) := by
  have isQuote := quoteFor_cases s.toList
  rw [toList_quote]
  generalize quoteFor s.toList = quote at isQuote
  have noSign : quote ≠ '-' := by rcases isQuote with rfl | rfl <;> decide
  have enough := length_le_flatMap_escape quote s.toList
  rw [readValue, if_neg noSign, if_pos isQuote, readChars_append isQuote]
  · simp
  · rw [length_append]
    omega

theorem readValue_quoted {v : Value} (word : isWord v = true) {rest : List Char}
    (stops : Stops Char.isDigit rest) : readValue (v.quoted.toList ++ rest) = some (v, rest) := by
  cases v with
  | str s => exact readValue_quote s rest
  | number x =>
    cases x with
    | int n =>
      have digits := readDigits_append n.natAbs stops
      rw [Value.quoted, Number.text]
      split
      case isTrue negative =>
        rw [String.toList_append]
        show readValue ('-' :: ((Decimal.digitText n.natAbs).toList ++ rest)) = _
        rw [readValue, if_pos rfl, digits]
        show some (Value.int (-(n.natAbs : Int)), rest) = _
        rw [Int.ofNat_natAbs_of_nonpos (Int.le_of_lt negative), Int.neg_neg]
        rfl
      case isFalse positive =>
        obtain ⟨c, cs, chars⟩ :=
          exists_cons_of_ne_nil (Decimal.digitText_ne_nil n.natAbs)
        have isDigit : c.isDigit = true := Decimal.isDigit_of_mem (chars ▸ mem_cons_self)
        have noSign : c ≠ '-' := by
          rintro rfl
          cases isDigit
        have noQuote : ¬ (c = '\'' ∨ c = '"') := by
          rintro (rfl | rfl) <;> cases isDigit
        rw [chars, cons_append] at digits ⊢
        rw [readValue, if_neg noSign, if_neg noQuote, if_pos isDigit, digits]
        show some (Value.int (n.natAbs : Int), rest) = _
        rw [Int.natAbs_of_nonneg (Int.not_lt.mp positive)]
        rfl
    | _ => cases word
  | _ => cases word

/-- A comma or a closing bracket starts no value. -/
theorem readValue_close (closes : c = ',' ∨ c = ')') (rest : List Char) :
    readValue (c :: rest) = none := by
  rcases closes with rfl | rfl <;> rfl

/-! ## Lists -/

section Lists

variable {α : Type} (item : Reader α)

/-- Read parts as long as a comma and a blank stand between them, then the end of the list. A comma
may stand behind a single part. -/
def readList : Nat → Reader (List α)
  | 0, _ => none
  | fuel + 1, cs =>
    match item cs with
    | none => some ([], cs.tail)
    | some (a, ',' :: ' ' :: cs) => do
      let (others, cs) ← readList fuel cs
      pure (a :: others, cs)
    | some (a, ',' :: cs) => some ([a], cs.tail)
    | some (a, cs) => some ([a], cs.tail)

/-- A part is read back in front of a comma and in front of the end of the list. -/
def ReadsPart (close : Char) (a : α) (text : String) : Prop :=
  ∀ c rest, c = ',' ∨ c = close → item (text.toList ++ c :: rest) = some (a, c :: rest)

variable {item} {close : Char} {parts : List α} {texts : List String}

/-- A single part is the whole list, with a comma behind it or without. -/
theorem readList_single {a : α} {text : String} (closes : close = ')' ∨ close = ']')
    (read : ReadsPart item close a text) (rest : List Char) (fuel : Nat) :
    readList item (fuel + 1) (text.toList ++ close :: rest) = some ([a], rest)
      ∧ readList item (fuel + 1) (text.toList ++ ',' :: close :: rest) = some ([a], rest) := by
  rw [readList, readList, read _ _ (.inr rfl), read _ _ (.inl rfl)]
  rcases closes with rfl | rfl <;> exact ⟨rfl, rfl⟩

theorem readList_commas (closes : close = ')' ∨ close = ']')
    (ends : ∀ rest, item (close :: rest) = none)
    (each : Forall₂ (ReadsPart item close) parts texts) (rest : List Char) {fuel : Nat}
    (enough : parts.length < fuel) :
    readList item fuel ((Value.commas texts).toList ++ close :: rest) = some (parts, rest) := by
  induction each generalizing fuel with
  | nil =>
    obtain ⟨fuel, rfl⟩ := Nat.exists_eq_succ_of_ne_zero (Nat.ne_of_gt enough)
    show readList item (fuel + 1) (close :: rest) = _
    rw [readList, ends]
    rfl
  | @cons a text parts texts first others ih =>
    obtain ⟨fuel, rfl⟩ : ∃ n, fuel = n + 1 := ⟨fuel - 1, by omega⟩
    cases others with
    | nil => exact (readList_single closes first rest fuel).1
    | @cons b next parts texts second others =>
      have later := ih (Nat.lt_of_succ_lt_succ enough)
      have shown : (Value.commas (text :: next :: texts)).toList ++ close :: rest
          = text.toList ++ ',' :: ' ' :: ((Value.commas (next :: texts)).toList
            ++ close :: rest) := by
        simp [Value.commas, String.intercalate_cons_cons]
      rw [shown, readList, first _ _ (.inl rfl)]
      show ((readList item fuel _).bind fun others => some (a :: others.1, others.2)) = _
      rw [later]
      rfl

theorem length_le_commas (texts : List String) :
    texts.length ≤ (Value.commas texts).toList.length + 1 := by
  induction texts with
  | nil => exact Nat.zero_le _
  | cons _ texts ih =>
    cases texts with
    | nil => exact Nat.le_add_left _ _
    | cons =>
      simp only [Value.commas, String.intercalate_cons_cons, String.toList_append,
        length_append, length_cons] at ih ⊢
      have blank : ", ".toList.length = 2 := rfl
      omega

/-- The rest of the text is fuel enough. -/
theorem readList_whole (closes : close = ')' ∨ close = ']')
    (ends : ∀ rest, item (close :: rest) = none)
    (each : Forall₂ (ReadsPart item close) parts texts) (rest : List Char) :
    readList item (((Value.commas texts).toList ++ close :: rest).length + 1)
      ((Value.commas texts).toList ++ close :: rest) = some (parts, rest) := by
  have few := length_le_commas texts
  refine readList_commas closes ends each rest ?_
  rw [length_append, length_cons, each.length_eq]
  omega

end Lists

def readTuple {α : Type} (item : Reader α) : Reader (List α)
  | '(' :: cs => readList item (cs.length + 1) cs
  | _ => none

theorem readTuple_append {α : Type} {item : Reader α} {parts : List α} {texts : List String}
    (ends : ∀ rest, item (')' :: rest) = none)
    (each : Forall₂ (ReadsPart item ')') parts texts) (rest : List Char) :
    readTuple item ((Value.tupleText texts).toList ++ rest) = some (parts, rest) := by
  unfold Value.tupleText
  split
  case h_1 part =>
    obtain ⟨a, parts, read, others, rfl⟩ := forall₂_cons_right_iff.mp each
    rw [forall₂_nil_right_iff.mp others, String.toList_append, String.toList_append,
      append_assoc, append_assoc]
    exact (readList_single (.inl rfl) read rest _).2
  case h_2 =>
    rw [String.toList_append, String.toList_append, append_assoc, append_assoc]
    exact readList_whole (.inl rfl) ends each rest

/-- A tuple of whole numbers and texts is read back from its written form. -/
theorem readTuple_quoted {values : List Value} (words : ∀ v ∈ values, isWord v = true)
    (rest : List Char) :
    readTuple readValue ((Value.tupleQuoted values).toList ++ rest) = some (values, rest) := by
  refine readTuple_append (readValue_close (.inr rfl)) ?_ rest
  rw [forall₂_map_right_iff, forall₂_same]
  intro v mem c rest closes
  refine readValue_quoted (words v mem) (stops_cons.mpr ?_)
  rcases closes with rfl | rfl <;> rfl

/-- The written form of a tuple of whole numbers and texts determines the tuple. -/
theorem tupleQuoted_inj {values others : List Value} (words : ∀ v ∈ values, isWord v = true)
    (wordsToo : ∀ v ∈ others, isWord v = true)
    (same : Value.tupleQuoted values = Value.tupleQuoted others) : values = others := by
  have read := readTuple_quoted words []
  rw [same, readTuple_quoted wordsToo] at read
  injection read with pair
  injection pair with equal
  exact equal.symm

end LinearProgram.Written
