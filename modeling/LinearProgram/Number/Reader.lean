import LinearProgram.Number.Decimal
import LinearProgram.Text.Blank
import LinearProgram.Text.Digit

/-!
# Reading doubles

The text of a double as people type it: blanks around it, a sign, digits of any script with single
underscores between them, a fraction, an exponent, or a word for infinity or for no number.
-/

namespace LinearProgram.FloatReader

/-- Blanks that may stand around a number: all but the information separators. -/
def isMargin (c : Char) : Bool :=
  if c.toNat < 0x80 then c == ' ' || (9 ≤ c.toNat && c.toNat ≤ 13) else Blank.isBlank c

def trim (s : List Char) : List Char :=
  ((s.dropWhile isMargin).reverse.dropWhile isMargin).reverse

/-- Write digits of any script in ASCII. -/
def plainDigit (c : Char) : Char :=
  match Digit.value? c with
  | some n => Char.ofNat (0x30 + n)
  | none => c

/-- Drop underscores, each of which must stand between two digits; `previous` says whether a digit
came before. -/
def dropUnderscores : Bool → List Char → Option (List Char)
  | _, [] => some []
  | previous, '_' :: c :: rest =>
    if previous && c.isDigit then (dropUnderscores true rest).map (c :: ·) else none
  | _, '_' :: [] => none
  | _, c :: rest => (dropUnderscores c.isDigit rest).map (c :: ·)

/-- The sign at the start of a text, and the rest. -/
def takeSign : List Char → Bool × List Char
  | '-' :: rest => (true, rest)
  | '+' :: rest => (false, rest)
  | s => (false, s)

/-- The exponent at the end of a number, zero if there is none. -/
def readExponent : List Char → Option Int
  | [] => some 0
  | c :: rest =>
    if c == 'e' || c == 'E' then
      let (negative, digits) := takeSign rest
      if digits.isEmpty then none
      else do
        let n ← if digits.all Char.isDigit then Digit.natural? digits else none
        pure (if negative then -Int.ofNat n else Int.ofNat n)
    else none

def readDecimal (s : List Char) : Option Decimal := do
  let whole := s.takeWhile Char.isDigit
  let rest := s.drop whole.length
  let (fraction, rest) := match rest with
    | '.' :: after =>
      let digits := after.takeWhile Char.isDigit
      (digits, after.drop digits.length)
    | _ => ([], rest)
  if whole.isEmpty && fraction.isEmpty then none
  else
    let exponent ← readExponent rest
    let digits ← Digit.natural? (whole ++ fraction)
    pure ⟨digits, exponent - Int.ofNat fraction.length⟩

/-- The double that a text reads as. -/
def read? (text : String) : Option Float := do
  let s ← dropUnderscores false ((trim text.toList).map plainDigit)
  let (negative, body) := takeSign s
  match (String.ofList body).toLower with
  | "inf" | "infinity" => pure (Double.infinity negative)
  | "nan" => pure Double.notANumber
  | _ => do pure (Decimal.toFloat negative (← readDecimal body))

/-- The integer that a text reads as. -/
def integer? (text : String) : Option Int := do
  let s ← dropUnderscores false ((trim text.toList).map plainDigit)
  let (negative, digits) := takeSign s
  if digits.isEmpty || !digits.all Char.isDigit then none
  else
    let n ← Digit.natural? digits
    pure (if negative then -Int.ofNat n else Int.ofNat n)

end LinearProgram.FloatReader
