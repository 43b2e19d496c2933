import LinearProgram.Value.Printer

/-!
# Linear polynomials

A polynomial is a linear combination of variable instances plus a constant. Its terms stand in the
order in which their variables first came up. `Polynomial.ofTerms` is the one constructor: it drops
the terms whose coefficient is zero.
-/

namespace LinearProgram

/-- An instance of a family. -/
structure VarKey where
  family : String
  index : List Value
  deriving Inhabited

namespace VarKey

/-- Two keys name one instance when their index values are equal by value. -/
def equal (a b : VarKey) : Bool := a.family == b.family && Value.equalItems a.index b.index

/-- The readable name of an instance, such as `x(1,A)`. -/
def text (key : VarKey) : String :=
  if key.index.isEmpty then key.family
  else key.family ++ "(" ++ ",".intercalate (key.index.map Value.text) ++ ")"

def isKey (key : VarKey) : Bool := Value.areKeys key.index

end VarKey

/-- A linear combination of variable instances plus a constant. -/
structure Polynomial where
  terms : List (VarKey × Number)
  constant : Number
  deriving Inhabited

namespace Polynomial

/-- Keep the terms whose coefficient is not zero. -/
def ofTerms (terms : List (VarKey × Number)) (constant : Number) : Polynomial where
  terms := terms.filter fun term => !term.2.isZero
  constant := constant

/-- A number as a polynomial. -/
def const (constant : Number) : Polynomial := ⟨[], constant⟩

/-- A variable as a polynomial. -/
def ofKey (key : VarKey) : Polynomial := ofTerms [(key, .int 1)] (.int 0)

def isConstant (p : Polynomial) : Bool := p.terms.isEmpty

/-- The coefficient of an instance, zero if it does not occur. -/
def coefficient (p : Polynomial) (key : VarKey) : Number :=
  ((p.terms.find? fun term => term.1.equal key).map (·.2)).getD (.int 0)

/-- A polynomial without its constant. -/
def linearPart (p : Polynomial) : Polynomial := ofTerms p.terms (.int 0)

/-- Equality of terms, in any order, and of constants. -/
def equal (p q : Polynomial) : Bool :=
  p.terms.length == q.terms.length
    && p.terms.all (fun term => q.terms.any fun other =>
        other.1.equal term.1 && term.2.equal other.2)
    && p.constant.equal q.constant

/-- The summands of a polynomial in words. -/
def summands (p : Polynomial) : List String :=
  let terms := p.terms.map fun term => term.2.text ++ "*" ++ term.1.text
  if p.constant.truthy || terms.isEmpty then terms ++ [p.constant.text] else terms

def text (p : Polynomial) : String := "Polynomial(" ++ " + ".intercalate p.summands ++ ")"

end Polynomial

end LinearProgram
