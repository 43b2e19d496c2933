import LinearProgram.Log
import LinearProgram.Polynomial.Basic

/-!
# Legal names

A name in LP text consists of letters, digits and some signs, and must not start like a number.
`Name.sanitize` makes any text a legal name; `Name.ofKey` names a variable instance. Both report
what they changed.
-/

namespace LinearProgram.Name

/-- The signs that names may hold besides letters, digits and the underscore. -/
def signs : List Char := "!\"#$%&()/,.;?@'`\x7b\x7d|~".toList

def isLegal (c : Char) : Bool := c.isAlphanum || c == '_' || signs.contains c

/-- Whether a character may occur in an index, where brackets and commas divide. -/
def isLegalInIndex (c : Char) : Bool := isLegal c && c != '(' && c != ')' && c != ','

/-- Whether a text would be read as a number where a name is due. -/
def looksNumeric : List Char → Bool
  | 'e' :: d :: _ | 'E' :: d :: _ => d.isDigit
  | c :: _ => c.isDigit || c == '.'
  | [] => false

/-- Replace the characters that do not pass a test by underscores. -/
def mask (legal : Char → Bool) (s : List Char) : List Char :=
  s.map fun c => if legal c then c else '_'

/-- The first `limit` characters; a negative limit drops characters from the end. -/
def cut (limit : Int) (s : List Char) : List Char :=
  if limit < 0 then s.take (s.length - limit.natAbs) else s.take limit.toNat

/-- The legal name closest to a text, of at most `limit` characters. -/
def sanitizeChars (limit : Int) (name : List Char) : List Char :=
  let masked := mask isLegal name
  cut limit (if masked.isEmpty || looksNumeric masked then '_' :: masked else masked)

/-- A legal name of limited length. -/
def sanitize (limit : Int) (name : String) : String :=
  String.ofList (sanitizeChars limit name.toList)

def sanitizeIndex (part : String) : String := String.ofList (mask isLegalInIndex part.toList)

def report (before after : String) : List LogRecord :=
  if after == before then []
  else [⟨.info, .model, "Sanitized name " ++ Quoted.quote before ++ " to " ++ Quoted.quote after⟩]

/-- The parts of an instance's name: an empty index becomes an underscore. -/
def indexParts (index : List Value) : List String :=
  index.map fun v =>
    let part := sanitizeIndex v.text
    if part.isEmpty then "_" else part

/-- The full name of an instance, before it is cut. -/
def fullName (limit : Int) (key : VarKey) : String :=
  sanitize limit key.family ++ "(" ++ ",".intercalate (indexParts key.index) ++ ")"

/-- The LP name of an instance. -/
def ofKey (limit : Int) (key : VarKey) : String :=
  if key.index.isEmpty then sanitize limit key.family
  else
    let full := fullName limit key
    if limit < Int.ofNat full.length then String.ofList (cut limit full.toList) else full

def reportsOfKey (limit : Int) (key : VarKey) : List LogRecord :=
  let family := report key.family (sanitize limit key.family)
  if key.index.isEmpty then family
  else
    let full := fullName limit key
    family ++ key.index.flatMap (fun v => report v.text (sanitizeIndex v.text))
      ++ (if limit < Int.ofNat full.length then
            [⟨.info, .model, "Truncated variable name " ++ Quoted.quote full⟩]
          else [])

end LinearProgram.Name
