import LinearProgram.Error
import LinearProgram.Value.Order

/-!
# Building trees

The nodes whose parts must fit together: a dotted key must be a bare name, and a piecewise linear
function needs increasing breakpoints with one slope and one intercept for each segment.
-/

namespace LinearProgram

namespace Expr

/-- What a name starts with. -/
def isNameStart (c : Char) : Bool := c.isAlpha || c == '_'

def isNameChar (c : Char) : Bool := c.isAlphanum || c == '_'

/-- A letter or underscore, then letters, digits and underscores, all ASCII; one line end may
follow. -/
def isBareName (s : String) : Bool :=
  match s.toList with
  | [] => false
  | c :: rest =>
    isNameStart c
      && (rest.all isNameChar
        || (rest.getLast? == some '\n' && rest.dropLast.all isNameChar))

/-- One step of a lookup chain. After a dot a key is a name. -/
def lookupStep (container key : Expr) (dot : Bool) : Except Error Expr :=
  if !dot then .ok (lookup container key false)
  else
    match key with
    | symbol name =>
      if isBareName name then .ok (lookup container key true) else raise (.dotKey key)
    | _ => raise (.dotKey key)

/-- Whether each value lies below the next; `none` if two neighbours have no order. -/
def increasing? : List Value → Option Bool
  | low :: high :: rest => do
    if ← Value.ordered? .greaterEq low high then pure false else increasing? (high :: rest)
  | _ => some true

/-- A piecewise function, whose data must fit together. -/
def piecewiseOf (operand : Expr) (breakpoints slopes intercepts : List Value) :
    Except Error Expr :=
  let segments := breakpoints.length - 1
  if breakpoints.length < 2 then raise .fewBreakpoints
  else if slopes.length ≠ segments ∨ intercepts.length ≠ segments then
    raise (.segmentCount segments)
  else do
    if ← orUnsupported (increasing? breakpoints) then
      pure (piecewise operand breakpoints slopes intercepts)
    else raise .breakpointOrder

end Expr

namespace GeneratorItem

/-- A name over a domain; a list of data is kept as a tuple. -/
def ranging (name : String) : Datum → GeneratorItem
  | .data (.list items) => generator name (.data (.tuple items))
  | domain => generator name domain

end GeneratorItem

end LinearProgram
