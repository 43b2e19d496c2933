/-!
# Words in lines and columns

Words are padded to the width of their column. `fill` puts words on lines that do not grow beyond a
width: a word that does not fit opens a new line, unless it would stand alone on the old one anyway.
-/

namespace LinearProgram.Block

def blanks (n : Nat) : String := String.ofList (List.replicate n ' ')

def padLeft (width : Nat) (s : String) : String := blanks (width - s.length) ++ s

def padRight (width : Nat) (s : String) : String := s ++ blanks (width - s.length)

def widest (parts : List String) : Nat := parts.foldl (fun w s => max w s.length) 0

def trimEnd (s : String) : String :=
  String.ofList (s.toList.reverse.dropWhile (· == ' ')).reverse

/-- The characters after the last line end. -/
def lastLine (s : String) : List Char := (s.toList.reverse.takeWhile (· != '\n')).reverse

/-- Lines that are being filled: the text of the finished ones, and the open one. -/
structure Filling where
  done : String
  line : String

/-- Put a word on the open line, or on a new one if it does not fit and the open line already holds
more than the indent. -/
def Filling.put (width : Nat) (indent : String) (filling : Filling) (word : String) : Filling :=
  if width < filling.line.length + word.length ∧ indent.length < filling.line.length then
    ⟨filling.done ++ trimEnd filling.line ++ "\n", indent ++ word⟩
  else ⟨filling.done, filling.line ++ word⟩

/-- Put words on lines, with a separator after each but the last. -/
def Filling.putAll (width : Nat) (indent separator : String) :
    Filling → List String → Filling
  | filling, [] => filling
  | filling, [word] => filling.put width indent word
  | filling, word :: rest =>
    let next := filling.put width indent word
    putAll width indent separator ⟨next.done, next.line ++ separator⟩ rest

/-- Words on lines up to a width. Every line but the first begins with the indent, and the first
leaves room for it. -/
def fill (width : Nat) (indent separator : String) (words : List String) : String :=
  let filling := Filling.putAll width indent separator ⟨"", indent⟩ words
  String.ofList ((filling.done ++ filling.line).toList.drop indent.length)

/-- The items at both ends of a list that is longer than both ends together, with a gap between. -/
def edges {α : Type} (count : Nat) (gap items : List α) : List α :=
  if 2 * count < items.length then
    items.take count ++ gap ++ items.drop (items.length - count)
  else items

end LinearProgram.Block
