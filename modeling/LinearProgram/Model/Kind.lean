/-!
# Kinds, directions and relations

The three kinds of variables, the two directions of an objective, and the three relations a stored
constraint can have, with the words that stand for them in documents and in LP text.
-/

namespace LinearProgram

/-- The values that a variable may take. -/
inductive VariableKind where
  | continuous | integer | binary
  deriving Repr, DecidableEq, Inhabited

namespace VariableKind

def word : VariableKind → String
  | continuous => "continuous"
  | integer => "integer"
  | binary => "binary"

def all : List VariableKind := [continuous, integer, binary]

/-- The kind named by a word in any case; two kinds have a second name. No letter outside ASCII
turns into one of these words' letters in lower case, so lowering ASCII is enough. -/
def ofText? (s : String) : Option VariableKind :=
  let word := s.toLower
  if word == "real" then some continuous
  else if word == "int" then some integer
  else all.find? (·.word == word)

end VariableKind

/-- Which way an objective goes. -/
inductive Direction where
  | minimize | maximize
  deriving Repr, DecidableEq, Inhabited

namespace Direction

def word : Direction → String
  | minimize => "minimize"
  | maximize => "maximize"

/-- The direction named by a word in any case, short or in either spelling. -/
def ofText? (s : String) : Option Direction :=
  let word := s.toLower
  if ["min", "minimize", "minimise"].contains word then some minimize
  else if ["max", "maximize", "maximise"].contains word then some maximize
  else none

end Direction

/-- How the two sides of a stored constraint relate. -/
inductive Relation where
  | equal | atMost | atLeast
  deriving Repr, DecidableEq, Inhabited

namespace Relation

def sign : Relation → String
  | equal => "=="
  | atMost => "<="
  | atLeast => ">="

/-- The relation written by a sign; a strict sign stands for its non-strict relation. -/
def ofSign? : String → Option Relation
  | "==" | "=" => some equal
  | "<=" | "<" => some atMost
  | ">=" | ">" => some atLeast
  | _ => none

end Relation

end LinearProgram
