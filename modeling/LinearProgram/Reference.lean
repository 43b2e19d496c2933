import LinearProgram.Evaluation
import LinearProgram.Model.Basic

/-!
# References to variables

A reference becomes a key once each of its indices has a value. Against a model, the key must name a
declared instance; without one, any key will do.
-/

namespace LinearProgram

/-- The value of one index of the reference `reference`, whose family is `name`. -/
def resolveIndex (reference : Expr) (name : Value) (context : Context) (index : Expr) :
    Except Error Value :=
  match index with
  | .wildcard => raise (.wildcardIndex reference)
  | .symbol symbol => context.resolve symbol
  | _ =>
    if index.isConstant then index.evaluate context else raise (.indexNotConstant index name)

/-- The values of the indices of a reference. -/
def resolveIndices (name : Value) (indices : List Expr) (context : Context) :
    Except Error (List Value) :=
  indices.mapM (resolveIndex (.ref name indices) name context)

/-- Whether a reference with these index values names a declared instance. -/
def Model.declares (m : Model) (name : Value) (index : List Value) : Except Error Bool :=
  if !name.isKey || !Value.areKeys index then breakDown .unsupported
  else
    match name with
    | .str family => .ok (m.declared? ⟨family, index⟩).isSome
    | _ => .ok false

/-- The instance that a reference names. -/
def resolveReference (registry : Option Model) (name : Value) (indices : List Expr)
    (context : Context) : Except Error VarKey := do
  let index ← resolveIndices name indices context
  match registry with
  | none =>
    if !name.isKey || !Value.areKeys index then breakDown .unsupported
    else pure ⟨name.text, index⟩
  | some m =>
    if ← m.declares name index then pure ⟨name.text, index⟩
    else
      match name with
      | .str family =>
        if m.hasFamily family then raise (.undeclaredInstance ⟨family, index⟩)
        else raise (.undeclaredFamily name)
      | _ => raise (.undeclaredFamily name)

end LinearProgram
