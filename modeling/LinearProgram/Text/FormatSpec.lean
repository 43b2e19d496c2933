import LinearProgram.Text.Digit
import LinearProgram.Value.Printer

/-!
# Format specifications

How a value is laid out: fill and alignment, sign, width, grouping of digits, precision and a letter
for the notation. `FormatSpec.parse?` and `FormatSpec.format?` give `none` where the specification
does not fit.
-/

namespace LinearProgram

/-- Where the padding goes. -/
inductive Alignment where
  | left | right | center
  /-- Padding goes between the sign and the digits. -/
  | inner
  deriving Repr, DecidableEq

def Alignment.ofChar? : Char → Option Alignment
  | '<' => some left
  | '>' => some right
  | '^' => some center
  | '=' => some inner
  | _ => none

/-- How a value is laid out. -/
structure FormatSpec where
  fill : Char := ' '
  alignment : Option Alignment := none
  /-- The sign option: `+`, `-` or a blank. -/
  sign : Option Char := none
  plainZero : Bool := false
  alternate : Bool := false
  zeroPadded : Bool := false
  width : Nat := 0
  separator : Option Char := none
  precision : Option Nat := none
  letter : Option Char := none
  deriving Repr

namespace FormatSpec

def takeIf (test : Char → Bool) : List Char → Option Char × List Char
  | c :: rest => if test c then (some c, rest) else (none, c :: rest)
  | [] => (none, [])

/-- The number at the start of a text. -/
def takeNatural (s : List Char) : Option Nat × List Char :=
  let digits := s.takeWhile fun c => (Digit.value? c).isSome
  (if digits.isEmpty then none else Digit.natural? digits, s.drop digits.length)

/-- Fill and alignment at the start of a specification. -/
def takeAlignment : List Char → Option Char × Option Alignment × List Char
  | c :: d :: rest =>
    match Alignment.ofChar? d, Alignment.ofChar? c with
    | some a, _ => (some c, some a, rest)
    | none, some a => (none, some a, d :: rest)
    | none, none => (none, none, c :: d :: rest)
  | [c] =>
    match Alignment.ofChar? c with
    | some a => (none, some a, [])
    | none => (none, none, [c])
  | [] => (none, none, [])

/-- The separators at a place; two different ones exclude each other. -/
def takeSeparator (s : List Char) : Option (Option Char × List Char) :=
  match s with
  | ',' :: '_' :: _ | '_' :: ',' :: _ => none
  | ',' :: rest => some (some ',', rest)
  | '_' :: rest => some (some '_', rest)
  | _ => some (none, s)

/-- Read a specification. -/
def parse? (text : List Char) : Option FormatSpec := do
  let (fill, alignment, s) := takeAlignment text
  let (sign, s) := takeIf (fun c => c == '+' || c == '-' || c == ' ') s
  let (plainZero, s) := takeIf (· == 'z') s
  let (alternate, s) := takeIf (· == '#') s
  let (zeroMark, s) := if fill.isSome then (none, s) else takeIf (· == '0') s
  let (width, s) := takeNatural s
  let (separator, s) ← takeSeparator s
  let (precision, s) ← match s with
    | '.' :: rest =>
      match takeNatural rest with
      | (some n, rest) => some (some n, rest)
      | (none, _) => none
    | _ => some (none, s)
  let letter ← match s with
    | [] => some none
    | [c] => some (some c)
    | _ => none
  pure
    { fill := fill.getD (if zeroMark.isSome then '0' else ' ')
      alignment, sign, plainZero := plainZero.isSome, alternate := alternate.isSome
      zeroPadded := zeroMark.isSome, width := width.getD 0, separator, precision
      letter }

/-- Fill a text up to its width. -/
def pad (spec : FormatSpec) (alignment : Alignment) (s : List Char) : List Char :=
  let missing := spec.width - s.length
  let before :=
    match alignment with
    | .right => missing
    | .center => missing / 2
    | .left | .inner => 0
  List.replicate before spec.fill ++ s ++ List.replicate (missing - before) spec.fill

/-- Lay out a text; the options of numbers do not apply to it. -/
def formatText? (spec : FormatSpec) (s : List Char) : Option String :=
  if spec.sign.isSome || spec.plainZero || spec.alternate || spec.separator.isSome
      || spec.alignment == some .inner || (spec.letter.any (· != 's')) then none
  else
    let shown := match spec.precision with
      | some n => s.take n
      | none => s
    some (String.ofList (spec.pad (spec.alignment.getD .left) shown))

/-- Group digits from the right, with leading zeros up to a least width. `rev` holds the digits last
first, `done` the groups so far. -/
def groupDigits (separator : Char) (size : Nat) : Nat → List Char → Int → List Char → List Char
  | 0, rev, _, done => rev.reverse ++ done
  | fuel + 1, rev, least, done =>
    let length := min size (max (max rev.length least.toNat) 1)
    let group := (rev.take length).reverse
    let group := List.replicate (length - group.length) '0' ++ group
    let done := group ++ done
    let rest := rev.drop length
    let least := least - Int.ofNat length
    if rest.isEmpty ∧ least ≤ 0 then done
    else groupDigits separator size fuel rest (least - 1) (separator :: done)

/-- The parts of a written number. -/
structure NumberText where
  negative : Bool
  /-- The mark of a base, such as `0x`. -/
  mark : List Char := []
  digits : List Char
  /-- What follows the whole part: fraction, exponent, percent sign. -/
  tail : List Char := []

/-- Put the parts together and pad them. -/
def assemble (spec : FormatSpec) (groupSize : Nat) (n : NumberText) : String :=
  let sign :=
    if n.negative then ['-']
    else match spec.sign with
      | some '+' => ['+']
      | some ' ' => [' ']
      | _ => []
  let lead := sign ++ n.mark
  let alignment :=
    spec.alignment.getD (if spec.zeroPadded then .inner else .right)
  let least : Int :=
    if spec.fill == '0' && alignment == .inner then
      Int.ofNat spec.width - Int.ofNat (lead.length + n.tail.length)
    else 0
  let digits :=
    if n.digits.isEmpty then []
    else match spec.separator with
    | some c =>
      groupDigits c groupSize (n.digits.length + least.toNat + 1) n.digits.reverse least []
    | none => List.replicate (least.toNat - n.digits.length) '0' ++ n.digits
  let body := digits ++ n.tail
  let missing := spec.width - (lead.length + body.length)
  String.ofList (match alignment with
    | .inner => lead ++ List.replicate missing spec.fill ++ body
    | other => spec.pad other (lead ++ body))

/-- Upper case for the notations that ask for it. -/
def raiseCase (letter : Char) (s : List Char) : List Char :=
  if letter.isUpper then s.map Char.toUpper else s

def exponentPart (e : Int) : List Char := (FloatLayout.exponentText 2 "e" e).toList

/-- A magnitude with a fixed number of places: whole part and the rest. -/
def fixedParts (places : Nat) (alternate : Bool) (num den : Nat) : List Char × List Char :=
  let scaled := Double.roundDiv (num * Nat.pow 10 places) den
  let whole := Nat.toDigits 10 (scaled / Nat.pow 10 places)
  let digits := Nat.toDigits 10 (scaled % Nat.pow 10 places)
  let fraction := List.replicate (places - digits.length) '0' ++ digits
  (whole, if places = 0 then (if alternate then ['.'] else []) else '.' :: fraction)

/-- A magnitude in scientific notation with the given digits after the point. -/
def scientificParts (places : Nat) (alternate : Bool) (num den : Nat) : List Char × List Char :=
  let d := Decimal.rounded num den (places + 1)
  let digits := Nat.toDigits 10 d.digits
  let digits := digits ++ List.replicate (places + 1 - digits.length) '0'
  let e : Int := if num = 0 then 0 else d.exponent + Int.ofNat places
  let point := if places = 0 then (if alternate then ['.'] else []) else '.' :: digits.drop 1
  (digits.take 1, point ++ exponentPart e)

/-- Drop trailing zeros after the point, and the point with them. -/
def trimFraction (tail : List Char) : List Char :=
  let (fraction, rest) := tail.span fun c => c == '.' || c.isDigit
  let kept := (fraction.reverse.dropWhile (· == '0')).reverse
  (if kept == ['.'] then [] else kept) ++ rest

/-- A magnitude with the given number of significant digits, positional where that is short enough.
A whole number that is to show its point needs one place more. -/
def generalParts (precision : Nat) (alternate pointed : Bool) (num den : Nat) :
    List Char × List Char :=
  let count := max precision 1
  let d := Decimal.rounded num den count
  let e : Int := if num = 0 then 0 else d.exponent + Int.ofNat count - 1
  let (whole, tail) :=
    if -4 ≤ e ∧ e < Int.ofNat count - (if pointed then 1 else 0) then
      fixedParts (Int.ofNat count - 1 - e).toNat alternate num den
    else scientificParts (count - 1) alternate num den
  let tail := if alternate then tail else trimFraction tail
  (whole, if pointed && tail.isEmpty then ['.', '0'] else tail)

/-- The shortest form of a magnitude; the alternate form shows a point before an exponent, too. -/
def shortestParts (alternate : Bool) (mantissa : Nat) (exponent : Int) : List Char × List Char :=
  let shown := (FloatLayout.standard.writeDecimal (Decimal.shortest mantissa exponent)).toList
  let (whole, tail) := shown.span (·.isDigit)
  (whole, if alternate && tail.head? != some '.' then '.' :: tail else tail)

/-- The parts of a magnitude in a notation; `none` if the letter is not one for doubles. -/
def floatParts? (spec : FormatSpec) (mantissa : Nat) (exponent : Int) :
    Option (List Char × List Char) :=
  let (num, den) := Double.magnitude mantissa exponent
  let places := spec.precision.getD 6
  match spec.letter, spec.precision with
  | some 'f', _ | some 'F', _ | some '%', _ => some (fixedParts places spec.alternate num den)
  | some 'e', _ | some 'E', _ => some (scientificParts places spec.alternate num den)
  | some 'g', _ | some 'G', _ | some 'n', _ =>
    some (generalParts places spec.alternate false num den)
  | none, some p => some (generalParts p spec.alternate true num den)
  | none, none => some (shortestParts spec.alternate mantissa exponent)
  | some _, _ => none

def isFloatLetter (letter : Char) : Bool := "fFeEgGn%".toList.contains letter

/-- Lay out a double. A percentage is a hundred times the double, with a sign after it. -/
def formatFloat? (spec : FormatSpec) (x : Float) : Option String :=
  let letter := spec.letter.getD 'g'
  if !isFloatLetter letter || (letter == 'n' && spec.separator.isSome) then none
  else
    let percent := if letter == '%' then ['%'] else []
    match Double.ofFloat (if letter == '%' then x * 100 else x) with
    | .nan =>
      some (spec.assemble 3
        { negative := false, digits := [], tail := raiseCase letter "nan".toList ++ percent })
    | .infinite negative =>
      some (spec.assemble 3
        { negative, digits := [], tail := raiseCase letter "inf".toList ++ percent })
    | .finite negative mantissa exponent => do
      let (whole, tail) ← floatParts? spec mantissa exponent
      let vanishes := (whole ++ tail).all fun c => !c.isDigit || c == '0'
      pure (spec.assemble 3
        { negative := negative && !(spec.plainZero && vanishes)
          digits := whole, tail := raiseCase letter tail ++ percent })

/-- Lay out an integer. -/
def formatInt? (spec : FormatSpec) (n : Int) : Option String :=
  let letter := spec.letter.getD 'd'
  let inBase (base : Nat) (mark : String) : Option String :=
    if spec.precision.isSome || spec.plainZero then none
    else
      some (spec.assemble (if base = 10 then 3 else 4)
        { negative := n < 0
          mark := if spec.alternate then mark.toList else []
          digits := raiseCase letter (Nat.toDigits base n.natAbs) })
  let underscored := spec.separator.all (· == '_')
  match letter with
  | 'd' => inBase 10 ""
  | 'n' => if spec.separator.isSome then none else inBase 10 ""
  | 'b' => if underscored then inBase 2 "0b" else none
  | 'o' => if underscored then inBase 8 "0o" else none
  | 'x' => if underscored then inBase 16 "0x" else none
  | 'X' => if underscored then inBase 16 "0X" else none
  | 'c' =>
    if spec.precision.isSome || spec.plainZero || spec.sign.isSome || spec.alternate
        || spec.separator.isSome || n < 0 || 0x110000 ≤ n then none
    else
      some (spec.assemble 3 { negative := false, digits := [], tail := [Char.ofNat n.toNat] })
  | _ => if isFloatLetter letter then do spec.formatFloat? (← Double.ofInt? n) else none

/-- Lay out a value. Besides numbers and text, values have the empty specification only. -/
def format? (text : List Char) (value : Value) : Option String :=
  if text.isEmpty then some value.text
  else
    match value with
    | .str s => do (← parse? text).formatText? s.toList
    | .number (.float x) | .cell (.float x) => do (← parse? text).formatFloat? x
    | .number x | .cell x => do (← parse? text).formatInt? (x.toInt?.getD 0)
    | _ => none

end FormatSpec

end LinearProgram
