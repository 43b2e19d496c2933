import LinearProgram.Expr.Basic
import LinearProgram.Value.Printer

/-!
# Written trees

`Expr.text?` writes a tree the way messages show it: arithmetic, lookups and references in operator
form, the other nodes with the names of their fields. A reference without indices is written as its
family's name alone, which must be text.
-/

namespace LinearProgram

namespace Expr

mutual

/-- The written form of a tree, if all its data can be written. -/
def text? : Expr → Option String
  | wildcard => some "_"
  | literal value => some value.quoted
  | symbol name => some name
  | ref name [] => name.str?
  | ref name (index :: rest) => do
    let indices ← textAll? (index :: rest)
    pure (name.text ++ "[" ++ Value.commas indices ++ "]")
  | lookup container key dot => do
    let c ← text? container
    let k ← text? key
    pure (if dot then c ++ "." ++ k else c ++ "[" ++ k ++ "]")
  | arith op left right => do
    let l ← text? left
    let r ← text? right
    pure ("(" ++ l ++ " " ++ op.sign ++ " " ++ r ++ ")")
  | negate operand => do pure ("-" ++ (← text? operand))
  | compare op left right => do
    let l ← text? left
    let r ← text? right
    pure (l ++ " " ++ op.sign ++ " " ++ r)
  | range start stop => do
    let l ← text? start
    let r ← text? stop
    pure (l ++ ".." ++ r)
  | sum args => do pure ("Sum(args=" ++ Value.tupleText (← textAll? args) ++ ")")
  | sumOver body generators => do
    let b ← text? body
    let g ← textItems? generators
    pure ("GeneratorSum(body=" ++ b ++ ", generators=" ++ Value.tupleText g ++ ")")
  | each pattern => do pure ("each(" ++ (← text? pattern) ++ ")")
  | abs operand => do pure ("Abs(expr=" ++ (← text? operand) ++ ")")
  | aggregate op args => do
    pure (op.word ++ "(args=" ++ Value.tupleText (← textAll? args) ++ ")")
  | ifThenElse cond thenBranch elseBranch => do
    let c ← text? cond
    let t ← text? thenBranch
    let e ← text? elseBranch
    pure ("IfThenElse(cond=" ++ c ++ ", then=" ++ t ++ ", else_=" ++ e ++ ")")
  | piecewise operand breakpoints slopes intercepts => do
    let e ← text? operand
    pure ("PiecewiseLinear(expr=" ++ e ++ ", breakpoints=" ++ Value.tupleQuoted breakpoints
      ++ ", slopes=" ++ Value.tupleQuoted slopes
      ++ ", intercepts=" ++ Value.tupleQuoted intercepts ++ ")")

def textAll? : List Expr → Option (List String)
  | [] => some []
  | e :: rest => do
    let first ← text? e
    let others ← textAll? rest
    pure (first :: others)

def textItems? : List GeneratorItem → Option (List String)
  | [] => some []
  | item :: rest => do
    let first ← textItem? item
    let others ← textItems? rest
    pure (first :: others)

def textItem? : GeneratorItem → Option String
  | .generator name domain => do
    let d ← textDatum? domain
    pure ("Generator(name=" ++ Quoted.quote name ++ ", domain=" ++ d ++ ")")
  | .filter cond => do pure ("Filter(expr=" ++ (← text? cond) ++ ")")

def textDatum? : Datum → Option String
  | .data value => some value.quoted
  | .tree e => text? e

end

end Expr

end LinearProgram
