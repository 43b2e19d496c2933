import LinearProgram.Text.Surrogate
import LinearProgram.Value.Basic

/-!
# JSON texts

A reader for JSON that keeps the order of object keys, tells integers from doubles and has integers
of any size up to the digit limit. A repeated key keeps its first place and takes its last value.
`NaN`, `Infinity` and `-Infinity` are accepted. A text that cannot be read is refused with the fault
and the offset where it was noticed.
-/

namespace LinearProgram.Json

/-- What is wrong with JSON text. -/
inductive Fault where
  | value | extraData | propertyName | colon | comma
  | unterminatedString | controlCharacter | escape | unicodeEscape | byteOrderMark
  /-- An integer of too many digits. -/
  | digits (count : Nat)
  deriving Repr, DecidableEq, Inhabited

def Fault.text : Fault → String
  | value => "Expecting value"
  | extraData => "Extra data"
  | propertyName => "Expecting property name enclosed in double quotes"
  | colon => "Expecting ':' delimiter"
  | comma => "Expecting ',' delimiter"
  | unterminatedString => "Unterminated string starting at"
  | controlCharacter => "Invalid control character at"
  | escape => "Invalid \\escape"
  | unicodeEscape => "Invalid \\uXXXX escape"
  | byteOrderMark => "Unexpected UTF-8 BOM (decode using utf-8-sig)"
  | digits count =>
    "Exceeds the limit (4300 digits) for integer string conversion: value has " ++ toString count
      ++ " digits; use sys.set_int_max_str_digits() to increase the limit"

/-- A fault, the offset where it was noticed, and that offset's line and column. -/
structure SyntaxError where
  fault : Fault
  offset : Nat
  line : Nat
  column : Nat
  deriving Repr, DecidableEq, Inhabited

/-- Locate a fault: lines and columns count from one. -/
def SyntaxError.locate (text : List Char) (fault : Fault) (offset : Nat) : SyntaxError :=
  let before := text.take offset
  let column := (before.reverse.takeWhile (· ≠ '\n')).length + 1
  ⟨fault, offset, before.count '\n' + 1, column⟩

def SyntaxError.message (e : SyntaxError) : String :=
  e.fault.text ++ ": line " ++ toString e.line ++ " column " ++ toString e.column
    ++ " (char " ++ toString e.offset ++ ")"

/-- The limit that a text exceeds, if that is why it was refused. Such a text may well be JSON. -/
def SyntaxError.limit? (e : SyntaxError) : Option String :=
  match e.fault with
  | .digits count => some (Fault.digits count).text
  | _ => none

/-- The unread characters and the offset of the first of them. -/
structure Cursor where
  rest : List Char
  offset : Nat
  deriving Inhabited

/-- A reading step gives its result, or a fault and its offset. -/
abbrev Step (α : Type) := Except (Fault × Nat) α

namespace Cursor

def advance (c : Cursor) (n : Nat) : Cursor := ⟨c.rest.drop n, c.offset + n⟩

/-- Only these four characters separate tokens. -/
def isSpace (c : Char) : Bool := c == ' ' || c == '\t' || c == '\n' || c == '\r'

/-- Skip blanks. -/
def skipSpace (c : Cursor) : Cursor :=
  c.advance (c.rest.takeWhile isSpace).length

end Cursor

/-- The value of a hexadecimal digit. -/
def hexValue? (c : Char) : Option Nat :=
  if '0' ≤ c ∧ c ≤ '9' then some (c.toNat - 48)
  else if 'a' ≤ c ∧ c ≤ 'f' then some (c.toNat - 87)
  else if 'A' ≤ c ∧ c ≤ 'F' then some (c.toNat - 55)
  else none

/-- The code written by four hexadecimal digits. -/
def hexCode? : List Char → Option Nat
  | a :: b :: c :: d :: _ => do
    let w ← hexValue? a
    let x ← hexValue? b
    let y ← hexValue? c
    let z ← hexValue? d
    pure (((w * 16 + x) * 16 + y) * 16 + z)
  | _ => none

/-- The character that a one-letter escape stands for. -/
def escaped? : Char → Option Char
  | '"' => some '"'
  | '\\' => some '\\'
  | '/' => some '/'
  | 'b' => some (Char.ofNat 8)
  | 'f' => some (Char.ofNat 12)
  | 'n' => some '\n'
  | 'r' => some '\r'
  | 't' => some '\t'
  | _ => none

/-- A `\u` escape, whose `u` stands at offset `mark`: the character, and how many characters follow
the `u` that belong to it. Two escapes that form a surrogate pair are one character. At least one
more character must follow. -/
def readUnicode (digits : List Char) (mark : Nat) : Step (Char × Nat) :=
  if digits.length ≤ 4 then .error (.unicodeEscape, mark)
  else
    match hexCode? digits with
    | none => .error (.unicodeEscape, mark)
    | some high =>
      match digits.drop 4 with
      | '\\' :: 'u' :: more =>
        if Surrogate.isHigh high ∧ 4 < more.length then
          match hexCode? more with
          | none => .error (.unicodeEscape, mark + 6)
          | some low =>
            if Surrogate.isLow low then
              .ok (Surrogate.join high low, 10)
            else .ok (Surrogate.charOf high, 4)
        else .ok (Surrogate.charOf high, 4)
      | _ => .ok (Surrogate.charOf high, 4)

/-- The characters of a string up to its closing quote; `start` is the offset of the opening one. -/
def readString (start : Nat) : Nat → List Char → Cursor → Step (String × Cursor)
  | 0, _, _ => .error (.unterminatedString, start)
  | fuel + 1, done, cursor =>
    match cursor.rest with
    | [] => .error (.unterminatedString, start)
    | '"' :: _ => .ok (String.ofList done.reverse, cursor.advance 1)
    | ['\\'] => .error (.unterminatedString, start)
    | '\\' :: 'u' :: digits => do
      let (c, used) ← readUnicode digits (cursor.offset + 1)
      readString start fuel (c :: done) (cursor.advance (used + 2))
    | '\\' :: c :: _ =>
      match escaped? c with
      | some e => readString start fuel (e :: done) (cursor.advance 2)
      | none => .error (.escape, cursor.offset)
    | c :: _ =>
      if c.toNat < 32 then .error (.controlCharacter, cursor.offset)
      else readString start fuel (c :: done) (cursor.advance 1)

def isDigit (c : Char) : Bool := '0' ≤ c && c ≤ '9'

/-- The number that digits write. -/
def natural (digits : List Char) : Nat := digits.foldl (fun n c => 10 * n + (c.toNat - 48)) 0

/-- The longest integer that is read. -/
def maxDigits : Nat := 4300

/-- A number token: a whole part without superfluous zeros, then maybe a fraction, then maybe an
exponent. A point or an `e` that no digit follows is left unread. -/
def readNumber (cursor : Cursor) : Step (Value × Cursor) :=
  let negative := cursor.rest.head? == some '-'
  let body := if negative then cursor.rest.drop 1 else cursor.rest
  let whole :=
    match body with
    | '0' :: _ => ['0']
    | _ => body.takeWhile isDigit
  if whole.isEmpty then .error (.value, cursor.offset)
  else
    let rest := body.drop whole.length
    let fraction :=
      match rest with
      | '.' :: more => more.takeWhile isDigit
      | _ => []
    let rest := if fraction.isEmpty then rest else rest.drop (fraction.length + 1)
    let exponent :=
      match rest with
      | e :: more =>
        if e == 'e' || e == 'E' then
          let sign := more.head?.filter fun c => c == '-' || c == '+'
          let digits := (if sign.isSome then more.drop 1 else more).takeWhile isDigit
          if digits.isEmpty then none else some (sign, digits)
        else none
      | [] => none
    let used :=
      (if negative then 1 else 0) + whole.length
        + (if fraction.isEmpty then 0 else fraction.length + 1)
        + (match exponent with
            | some (sign, digits) => 1 + (if sign.isSome then 1 else 0) + digits.length
            | none => 0)
    let value :=
      if fraction.isEmpty ∧ exponent.isNone then
        let n : Int := natural whole
        Value.int (if negative then -n else n)
      else
        let shift : Int :=
          match exponent with
          | some (some '-', digits) => -(natural digits : Int)
          | some (_, digits) => natural digits
          | none => 0
        Value.float
          (Decimal.toFloat negative ⟨natural (whole ++ fraction), shift - fraction.length⟩)
    if fraction.isEmpty ∧ exponent.isNone ∧ maxDigits < whole.length then
      .error (.digits whole.length, cursor.offset)
    else .ok (value, cursor.advance used)

/-- The words that stand for values. -/
def words : List (String × Value) :=
  [("null", .none), ("true", .bool true), ("false", .bool false),
   ("NaN", .float Double.notANumber), ("Infinity", .number .infinity),
   ("-Infinity", .number .negInfinity)]

/-- The word at the cursor, if there is one. -/
def readWord? (cursor : Cursor) : Option (Value × Cursor) :=
  (words.find? fun word => word.1.toList.isPrefixOf cursor.rest).map fun word =>
    (word.2, cursor.advance word.1.length)

mutual

/-- A value at the cursor, without leading space. -/
def readValue : Nat → Cursor → Step (Value × Cursor)
  | 0, cursor => .error (.value, cursor.offset)
  | fuel + 1, cursor =>
    match cursor.rest with
    | '"' :: rest => do
      let (s, after) ← readString cursor.offset (rest.length + 1) [] (cursor.advance 1)
      pure (.str s, after)
    | '\x7b' :: _ =>
      let inner := (cursor.advance 1).skipSpace
      if inner.rest.head? == some '\x7d' then .ok (.table [], inner.advance 1)
      else readMembers fuel [] inner
    | '[' :: _ =>
      let inner := (cursor.advance 1).skipSpace
      if inner.rest.head? == some ']' then .ok (.list [], inner.advance 1)
      else readElements fuel [] inner
    | _ =>
      match readWord? cursor with
      | some found => .ok found
      | none => readNumber cursor

/-- The members of an object from a key on, up to the closing brace. -/
def readMembers : Nat → Entries → Cursor → Step (Value × Cursor)
  | 0, _, cursor => .error (.propertyName, cursor.offset)
  | fuel + 1, done, cursor =>
    match cursor.rest with
    | '"' :: rest => do
      let (key, after) ← readString cursor.offset (rest.length + 1) [] (cursor.advance 1)
      let after := after.skipSpace
      if after.rest.head? == some ':' then
        let (value, after) ← readValue fuel (after.advance 1).skipSpace
        let done := Entries.put done (.str key) value
        let after := after.skipSpace
        if after.rest.head? == some '\x7d' then pure (.table done, after.advance 1)
        else if after.rest.head? == some ',' then
          readMembers fuel done (after.advance 1).skipSpace
        else .error (.comma, after.offset)
      else .error (.colon, after.offset)
    | _ => .error (.propertyName, cursor.offset)

/-- The elements of an array from a value on, up to the closing bracket. -/
def readElements : Nat → List Value → Cursor → Step (Value × Cursor)
  | 0, _, cursor => .error (.value, cursor.offset)
  | fuel + 1, done, cursor => do
    let (value, after) ← readValue fuel cursor
    let after := after.skipSpace
    if after.rest.head? == some ']' then
      pure (.list (value :: done).reverse, after.advance 1)
    else if after.rest.head? == some ',' then
      readElements fuel (value :: done) (after.advance 1).skipSpace
    else .error (.comma, after.offset)

end

/-- Read a whole text as one value. Every step into or along a value uses up a character, so twice
the length is fuel enough. -/
def parse (s : String) : Except SyntaxError Value :=
  let text := s.toList
  let located (fault : Fault × Nat) := SyntaxError.locate text fault.1 fault.2
  if text.head? == some (Char.ofNat 0xFEFF) then .error (located (.byteOrderMark, 0))
  else
    match readValue (2 * text.length + 2) (Cursor.skipSpace ⟨text, 0⟩) with
    | .error fault => .error (located fault)
    | .ok (value, after) =>
      let after := after.skipSpace
      if after.rest.isEmpty then .ok value
      else .error (located (.extraData, after.offset))

end LinearProgram.Json
