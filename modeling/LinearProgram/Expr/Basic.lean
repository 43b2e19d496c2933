import LinearProgram.Value.Basic

/-!
# Expression trees

Statements are written over trees of arithmetic, lookups into parameters, references to decision
variables, sums over bound names and nonlinear operators. A wildcard stands for every value of one
dimension. `Expr.walk` lists the nodes of a tree with an explicit work list, parents before
children; `Expr.weight` counts them.
-/

namespace LinearProgram

/-- Arithmetic operators. -/
inductive Arithmetic where
  | add | sub | mul | div
  deriving Repr, DecidableEq, Inhabited

/-- Comparison operators. -/
inductive Comparison where
  | eq | ne | le | ge | lt | gt
  deriving Repr, DecidableEq, Inhabited

/-- The operators that join any number of operands, or the instances of one pattern. -/
inductive Aggregate where
  | max | min | and | or
  deriving Repr, DecidableEq, Inhabited

namespace Arithmetic

def sign : Arithmetic → String
  | add => "+"
  | sub => "-"
  | mul => "*"
  | div => "/"

def all : List Arithmetic := [add, sub, mul, div]

def ofSign? (s : String) : Option Arithmetic := all.find? (·.sign == s)

end Arithmetic

namespace Comparison

def sign : Comparison → String
  | eq => "=="
  | ne => "!="
  | le => "<="
  | ge => ">="
  | lt => "<"
  | gt => ">"

def all : List Comparison := [eq, ne, le, ge, lt, gt]

def ofSign? (s : String) : Option Comparison := all.find? (·.sign == s)

end Comparison

namespace Aggregate

def word : Aggregate → String
  | max => "Max"
  | min => "Min"
  | and => "And"
  | or => "Or"

end Aggregate

mutual

/-- Expression trees. -/
inductive Expr where
  /-- Every value of the dimension where it stands. -/
  | wildcard
  | literal (value : Value)
  /-- A bare name: a bound name, a parameter, or a lookup key. -/
  | symbol (name : String)
  /-- A reference to one instance of a variable family. Documents may put any value in the place of
  the family's name; only text ever names a declared family. -/
  | ref (name : Value) (indices : List Expr)
  /-- One step into a parameter table; a dotted key is taken literally. -/
  | lookup (container key : Expr) (dot : Bool)
  | arith (op : Arithmetic) (left right : Expr)
  | negate (operand : Expr)
  | compare (op : Comparison) (left right : Expr)
  /-- The integers from `start` to `stop`, both included. -/
  | range (start stop : Expr)
  | sum (args : List Expr)
  /-- The sum of `body` over the bindings of `generators`. -/
  | sumOver (body : Expr) (generators : List GeneratorItem)
  /-- The instances of a pattern, as the operands of an aggregate. -/
  | each (pattern : Expr)
  | abs (operand : Expr)
  | aggregate (op : Aggregate) (args : List Expr)
  | ifThenElse (cond thenBranch elseBranch : Expr)
  /-- `slopes[k] * operand + intercepts[k]` between the breakpoints `k` and `k + 1`. -/
  | piecewise (operand : Expr) (breakpoints slopes intercepts : List Value)

/-- One step of a binding list: a name over a domain, or a condition on the names bound so far. -/
inductive GeneratorItem where
  | generator (name : String) (domain : Datum)
  | filter (cond : Expr)

/-- Data given outright, or by a tree that evaluates to it. -/
inductive Datum where
  | data (value : Value)
  | tree (expr : Expr)

end

instance : Inhabited Expr := ⟨.wildcard⟩
instance : Inhabited Datum := ⟨.data .none⟩
instance : Inhabited GeneratorItem := ⟨.filter .wildcard⟩

namespace GeneratorItem

/-- The trees of a generator or filter. -/
def children : GeneratorItem → List Expr
  | generator _ (.tree e) => [e]
  | generator _ (.data _) => []
  | filter cond => [cond]

def name? : GeneratorItem → Option String
  | generator name _ => some name
  | filter _ => none

end GeneratorItem

namespace Expr

/-- The direct subtrees of a node, from left to right. -/
def children : Expr → List Expr
  | wildcard | literal _ | symbol _ => []
  | ref _ indices => indices
  | lookup container key _ => [container, key]
  | arith _ left right | compare _ left right | range left right => [left, right]
  | negate operand | each operand | abs operand => [operand]
  | sum args | aggregate _ args => args
  | sumOver body generators => body :: generators.flatMap GeneratorItem.children
  | ifThenElse cond thenBranch elseBranch => [cond, thenBranch, elseBranch]
  | piecewise operand _ _ _ => [operand]

mutual

/-- The number of nodes. -/
def weight : Expr → Nat
  | wildcard | literal _ | symbol _ => 1
  | ref _ indices => 1 + weightAll indices
  | lookup container key _ => 1 + weight container + weight key
  | arith _ left right | compare _ left right | range left right => 1 + weight left + weight right
  | negate operand | each operand | abs operand => 1 + weight operand
  | sum args | aggregate _ args => 1 + weightAll args
  | sumOver body generators => 1 + weight body + weightItems generators
  | ifThenElse cond thenBranch elseBranch =>
    1 + weight cond + weight thenBranch + weight elseBranch
  | piecewise operand _ _ _ => 1 + weight operand

def weightAll : List Expr → Nat
  | [] => 0
  | e :: rest => weight e + weightAll rest

def weightItems : List GeneratorItem → Nat
  | [] => 0
  | item :: rest => weightItem item + weightItems rest

def weightItem : GeneratorItem → Nat
  | .generator _ domain => weightDatum domain
  | .filter cond => weight cond

def weightDatum : Datum → Nat
  | .data _ => 0
  | .tree e => weight e

end

@[simp] theorem weightAll_nil : weightAll [] = 0 := rfl

@[simp] theorem weightAll_cons (e : Expr) (rest : List Expr) :
    weightAll (e :: rest) = weight e + weightAll rest := rfl

@[simp] theorem weightAll_append (xs ys : List Expr) :
    weightAll (xs ++ ys) = weightAll xs + weightAll ys := by
  induction xs with
  | nil => simp
  | cons x xs ih => simp [ih, Nat.add_assoc]

theorem weightAll_item_children (item : GeneratorItem) :
    weightAll item.children = weightItem item := by
  cases item with
  | filter cond => simp [GeneratorItem.children, weightItem]
  | generator name domain =>
    cases domain <;> simp [GeneratorItem.children, weightItem, weightDatum]

theorem weightAll_flatMap_children (items : List GeneratorItem) :
    weightAll (items.flatMap GeneratorItem.children) = weightItems items := by
  induction items with
  | nil => rfl
  | cons item rest ih =>
    simp [weightItems, weightAll_item_children, ih]

theorem weight_eq_children (e : Expr) : e.weight = 1 + weightAll e.children := by
  cases e <;>
    simp [weight, children, weightAll_flatMap_children, Nat.add_assoc]

/-- Visit the trees of a work list: a node first, then its subtrees, then the rest. A visit takes
one unit of fuel and lowers the weight of the work list by one. -/
def walkAll : Nat → List Expr → List Expr
  | 0, _ | _ + 1, [] => []
  | fuel + 1, e :: rest => e :: walkAll fuel (e.children ++ rest)

/-- Every node of the tree, parents before children. -/
def walk (e : Expr) : List Expr := walkAll e.weight [e]

/-- The name of a node's type. -/
def word : Expr → String
  | wildcard => "Wildcard"
  | literal _ => "Literal"
  | symbol _ => "SymbolicKey"
  | ref _ _ => "VariableRef"
  | lookup _ _ _ => "Lookup"
  | arith _ _ _ => "BinaryOp"
  | negate _ => "Negate"
  | compare _ _ _ => "Comparison"
  | range _ _ => "Range"
  | sum _ => "Sum"
  | sumOver _ _ => "GeneratorSum"
  | each _ => "PatternInstanceSet"
  | abs _ => "Abs"
  | aggregate op _ => op.word
  | ifThenElse _ _ _ => "IfThenElse"
  | piecewise _ _ _ _ => "PiecewiseLinear"

/-- Whether a node refers to a decision variable or stands for many values. -/
def isOpen : Expr → Bool
  | ref _ _ | wildcard => true
  | _ => false

/-- Whether a tree is free of decision variables and wildcards, and so has a value of its own. -/
def isConstant (e : Expr) : Bool := e.walk.all fun node => !node.isOpen

end Expr

end LinearProgram
