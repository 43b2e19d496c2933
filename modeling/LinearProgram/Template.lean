import LinearProgram.Context
import LinearProgram.Text.FormatSpec

/-!
# Descriptions with placeholders

A description may hold placeholders such as `cap_{i}`: a name, then steps into its value, then a
conversion, then a format specification, which may hold placeholders of its own. A doubled brace
stands for itself. A missing name or key is told apart from the other failures.
-/

namespace LinearProgram.Template

/-- Why a description cannot be filled. -/
inductive Fault where
  | missing (key : String)
  | unfit
  deriving Repr, DecidableEq

/-- Plain text or a placeholder. -/
inductive Piece where
  | literal (text : List Char)
  | placeholder (name : List Char) (conversion : Option Char) (spec : List Char) (nested : Bool)

/-- The name part of a placeholder, up to its end or to a colon or exclamation mark, which do not
count between brackets; also the character that ended it and what follows. -/
def scanName : Nat → List Char → List Char → Option (List Char × Char × List Char)
  | 0, _, _ => none
  | fuel + 1, done, s =>
    match s with
    | [] | '\x7b' :: _ => none
    | '[' :: rest =>
      let inside := rest.takeWhile (· ≠ ']')
      scanName fuel (inside.reverse ++ '[' :: done) (rest.drop inside.length)
    | c :: rest =>
      if c == '\x7d' || c == ':' || c == '!' then some (done.reverse, c, rest)
      else scanName fuel (c :: done) rest

/-- The specification of a placeholder up to the brace that closes it, whether it holds
placeholders, and what follows. -/
def scanSpec : List Char → Nat → List Char → Bool → Option (List Char × Bool × List Char)
  | [], _, _, _ => none
  | c :: rest, depth, done, nested =>
    if c == '\x7b' then scanSpec rest (depth + 1) (c :: done) true
    else if c == '\x7d' then
      match depth with
      | 0 => some (done.reverse, nested, rest)
      | inner + 1 => scanSpec rest inner (c :: done) nested
    else scanSpec rest depth (c :: done) nested

def scanPlaceholder (s : List Char) : Option (Piece × List Char) := do
  let (name, stop, rest) ← scanName (s.length + 1) [] s
  if stop == '\x7d' then pure (.placeholder name none [] false, rest)
  else if stop == ':' then
    let (spec, nested, rest) ← scanSpec rest 0 [] false
    pure (.placeholder name none spec nested, rest)
  else
    match rest with
    | c :: '\x7d' :: rest => pure (.placeholder name (some c) [] false, rest)
    | c :: ':' :: rest => do
      let (spec, nested, rest) ← scanSpec rest 0 [] false
      pure (.placeholder name (some c) spec nested, rest)
    | _ => none

/-- The first piece of a description and what follows it. -/
def nextPiece (s : List Char) : Option (Piece × List Char) :=
  let text := s.takeWhile fun c => c != '\x7b' && c != '\x7d'
  match s.drop text.length with
  | [] => some (.literal text, [])
  | '\x7b' :: '\x7b' :: rest => some (.literal (text ++ ['\x7b']), rest)
  | '\x7d' :: '\x7d' :: rest => some (.literal (text ++ ['\x7d']), rest)
  | '\x7b' :: c :: rest =>
    if text.isEmpty then scanPlaceholder (c :: rest)
    else some (.literal text, '\x7b' :: c :: rest)
  | _ => none

/-- The position that a key in brackets stands for, if it is written in digits. -/
def position? (key : List Char) : Option Nat :=
  if key.isEmpty then none else Digit.natural? key

/-- A value under a text key. -/
def itemNamed (value : Value) (key : String) : Except Fault Value :=
  match value with
  | .table entries | .foreign _ (.table entries) _ =>
    match Entries.named? entries key with
    | some v => .ok v
    | none => .error (.missing key)
  | _ => .error .unfit

/-- A value at a position, or under a number as key. -/
def itemAt (value : Value) (n : Nat) : Except Fault Value :=
  match value with
  | .table entries | .foreign _ (.table entries) _ =>
    match Entries.get? entries (.int n) with
    | some v => .ok v
    | none => .error (.missing (toString n))
  | .str s =>
    match s.toList[n]? with
    | some c => .ok (.str (String.singleton c))
    | none => .error .unfit
  | _ =>
    match value.item? n with
    | some v => .ok v
    | none => .error .unfit

/-- Follow the steps that come after a name. -/
def follow (host : Host) : Nat → List Char → Value → Except Fault Value
  | 0, _, _ => .error .unfit
  | fuel + 1, steps, value =>
    match steps with
    | [] => .ok value
    | '.' :: rest =>
      let name := rest.takeWhile fun c => c != '.' && c != '['
      match name, value.attribute? host (String.ofList name) with
      | [], _ | _, none => .error .unfit
      | _ :: _, some v => follow host fuel (rest.drop name.length) v
    | '[' :: rest =>
      let key := rest.takeWhile (· ≠ ']')
      match key, rest.drop key.length with
      | [], _ | _, [] => .error .unfit
      | _ :: _, _ :: after => do
        let v ← match position? key with
          | some n => itemAt value n
          | none => itemNamed value (String.ofList key)
        follow host fuel after v
    | _ :: _ => .error .unfit

/-- The value that a placeholder's name part leads to. A name that is empty or a number would be a
position among arguments, of which there are none. -/
def resolve (host : Host) (value? : String → Option Value)
    (name : List Char) : Except Fault Value :=
  let first := name.takeWhile fun c => c != '.' && c != '['
  if first.isEmpty || (position? first).isSome then .error .unfit
  else
    match value? (String.ofList first) with
    | none => .error (.missing (String.ofList first))
    | some v =>
      let steps := name.drop first.length
      follow host (steps.length + 1) steps v

/-- Characters outside ASCII by their codes. -/
def escapeAscii (s : String) : String :=
  String.ofList (s.toList.flatMap fun c =>
    if c.toNat < 0x80 then [c]
    else if c.toNat < 0x100 then '\\' :: 'x' :: Quoted.hex 2 c.toNat
    else if c.toNat < 0x10000 then '\\' :: 'u' :: Quoted.hex 4 c.toNat
    else '\\' :: 'U' :: Quoted.hex 8 c.toNat)

/-- A value after the conversion that a placeholder asks for. -/
def convert : Option Char → Value → Except Fault Value
  | none, v => .ok v
  | some 'r', v => .ok (.str v.quoted)
  | some 's', v => .ok (.str v.text)
  | some 'a', v => .ok (.str (escapeAscii v.quoted))
  | some _, _ => .error .unfit

/-- Fill the pieces of a description, at most `fuel` of them. `expand` fills the placeholders inside
a format specification. -/
def fillPieces (host : Host) (value? : String → Option Value)
    (expand : List Char → Except Fault (List Char)) : Nat → List Char → Except Fault (List Char)
  | 0, _ => .error .unfit
  | _ + 1, [] => .ok []
  | fuel + 1, c :: rest =>
    match nextPiece (c :: rest) with
    | none => .error .unfit
    | some (.literal text, after) => do
      let others ← fillPieces host value? expand fuel after
      pure (text ++ others)
    | some (.placeholder name conversion spec nested, after) => do
      let v ← convert conversion (← resolve host value? name)
      let spec ← if nested then expand spec else pure spec
      match FormatSpec.format? spec v with
      | none => .error .unfit
      | some shown => do
        let others ← fillPieces host value? expand fuel after
        pure (shown.toList ++ others)

/-- Fill a format specification, whose placeholders hold no further ones. -/
def fillSpec (host : Host) (value? : String → Option Value) (spec : List Char) :
    Except Fault (List Char) :=
  fillPieces host value? (fun _ => .error .unfit) (spec.length + 1) spec

/-- A description with its placeholders filled. -/
def fill (host : Host) (value? : String → Option Value) (text : String) : Except Fault String := do
  let s := text.toList
  let filled ← fillPieces host value? (fillSpec host value?) (s.length + 1) s
  pure (String.ofList filled)

end LinearProgram.Template
