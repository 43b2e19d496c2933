import LinearProgram.Compilation.Linear
import LinearProgram.Linearization
import LinearProgram.Wildcard

/-!
# Compiling expressions

`compile` turns any tree into a polynomial over the variables of a model. Sums are expanded,
nonlinear operators are linearized, and the rest folds as in a linear tree. Expansion keeps the
weight of a tree, so the weight bounds the depth of the recursion.
-/

namespace LinearProgram

/-- Fold over a listing, then fail with the error that ended it. -/
def Assembly.foldListing {α σ : Type} (listing : Listing α) (f : σ → α → Assembly σ) (start : σ) :
    Assembly σ := do
  let result ← listing.items.foldlM f start
  match listing.stop with
  | some e => throw e
  | none => pure result

namespace Compilation

/-- The operands of an aggregate: its arguments, or the instances of its pattern. -/
def operands (e : Expr) (args : List Expr) (context : Context) : Assembly (List Expr) := do
  match e.pattern? with
  | none => pure args
  | some pattern =>
    let instances ← Wildcard.expand (some (← Assembly.model)) context pattern
    if instances.isEmpty then Assembly.refuse (.noInstances e) else pure instances

/-- How the subtrees of a node are compiled. -/
abbrev Subtrees := Expr → Context → Assembly Polynomial

/-- The sum of the polynomials of trees. -/
def sumTrees (compileTree : Subtrees) (trees : List Expr) (context : Context) :
    Assembly Polynomial :=
  trees.foldlM (fun total tree => do total.add (← compileTree tree context))
    (Polynomial.const (.int 0))

/-- The polynomial of a summand; one with wildcards stands for the sum of its instances. -/
def compileSummand (compileTree : Subtrees) (e : Expr) (context : Context) :
    Assembly Polynomial := do
  let body := match e with
    | .each pattern => pattern
    | _ => e
  if body.hasWildcard then
    let instances ← Wildcard.expand (some (← Assembly.model)) context body
    sumTrees compileTree instances context
  else compileTree body context

/-- The number of a truth value, if a constant tree is one. -/
def constantCondition (e : Expr) (context : Context) : Except Error (Option Polynomial) := do
  if e.isConstant then
    match ← e.evaluate context with
    | .number (.bool b) => pure (some (Polynomial.const (.int (if b then 1 else 0))))
    | _ => pure none
  else pure none

/-- The polynomial of a condition, which may be a truth value. -/
def compileCondition (compileTree : Subtrees) (context : Context) (e : Expr) :
    Assembly Polynomial := do
  match ← constantCondition e context with
  | some p => pure p
  | none => compileTree e context

/-- Linearize an aggregate of trees. -/
def compileAggregate (config : Config) (compileTree : Subtrees) (op : Aggregate)
    (trees : List Expr) (context : Context) : Assembly Polynomial := do
  match op with
  | .max => Linearization.maximum config (← trees.mapM fun e => compileTree e context)
  | .min => Linearization.minimum config (← trees.mapM fun e => compileTree e context)
  | .and => Linearization.conjunction config (← trees.mapM (compileCondition compileTree context))
  | .or => Linearization.disjunction config (← trees.mapM (compileCondition compileTree context))

/-- The polynomial of one node, given how its subtrees are compiled. -/
def compileNode (config : Config) (compileTree : Subtrees) (e : Expr) (context : Context) :
    Assembly Polynomial := do
  if e.isConstant then e.foldConstant context
  else
    match e with
    | .sumOver body generators =>
      Assembly.foldListing (bindings generators context)
        (fun (total : Polynomial) inner => do
          total.add (← compileSummand compileTree body inner))
        (Polynomial.const (.int 0))
    | .sum args =>
      args.foldlM (fun (total : Polynomial) arg => do
          total.add (← compileSummand compileTree arg context))
        (Polynomial.const (.int 0))
    | .each _ => Assembly.refuse (.misplacedPattern e)
    | .abs operand => Linearization.absolute config (← compileTree operand context)
    | .aggregate op args =>
      compileAggregate config compileTree op (← operands e args context) context
    | .ifThenElse cond thenBranch elseBranch =>
      let c ← compileCondition compileTree context cond
      let whenTrue ← compileTree thenBranch context
      let whenFalse ← compileTree elseBranch context
      Linearization.choice config c whenTrue whenFalse
    | .piecewise operand breakpoints slopes intercepts =>
      let p ← compileTree operand context
      Linearization.piecewise config p breakpoints slopes intercepts
    | .compare _ _ _ => Assembly.refuse (.comparisonValue e)
    | .ref name indices => foldReference (some (← Assembly.model)) name indices context
    | .arith op left right =>
      let l ← compileTree left context
      let r ← compileTree right context
      joinPolynomials e op l r
    | .negate operand => (← compileTree operand context).neg
    | _ => Assembly.refuse (.notFoldable e)

/-- The polynomial of a tree of at most the given weight. -/
def compileWithin (config : Config) : Nat → Expr → Context → Assembly Polynomial
  | 0, e, _ => Assembly.refuse (.notFoldable e)
  | limit + 1, e, context => compileNode config (compileWithin config limit) e context

/-- The polynomial of a tree. -/
def compile (config : Config) (e : Expr) (context : Context) : Assembly Polynomial :=
  compileWithin config e.weight e context

end Compilation

end LinearProgram
