import LinearProgram.Reference

/-!
# Wildcards

A wildcard stands for every value of an index of a reference or a key of a lookup chain, the
carriers of a tree. The k-th wildcards of all carriers belong to one role and take the same value.
`expand` lists the trees that arise when the roles take all their values, and leaves out those that
name an undeclared instance. Sums, patterns and aggregates of a single argument are scopes: the
wildcards in them are not touched from outside.
-/

namespace LinearProgram

namespace Expr

def isWildcard : Expr → Bool
  | wildcard => true
  | _ => false

/-- Whether a node binds the wildcards inside it. -/
def isScope : Expr → Bool
  | sum _ | sumOver _ _ | each _ | aggregate _ [_] => true
  | _ => false

mutual

/-- Whether a wildcard occurs outside all scopes. -/
def hasWildcard : Expr → Bool
  | wildcard => true
  | literal _ | symbol _ | sum _ | sumOver _ _ | each _ => false
  | ref _ indices => anyWildcard indices
  | lookup container key _ => hasWildcard container || hasWildcard key
  | arith _ left right | compare _ left right | range left right =>
    hasWildcard left || hasWildcard right
  | negate operand | abs operand | piecewise operand _ _ _ => hasWildcard operand
  | aggregate _ [_] => false
  | aggregate _ args => anyWildcard args
  | ifThenElse cond thenBranch elseBranch =>
    hasWildcard cond || hasWildcard thenBranch || hasWildcard elseBranch

def anyWildcard : List Expr → Bool
  | [] => false
  | e :: rest => hasWildcard e || anyWildcard rest

end

/-- The steps of a lookup chain that have a wildcard key, innermost first. -/
def wildcardSteps : Expr → List Expr
  | lookup container key dot =>
    wildcardSteps container ++ (if key.isWildcard then [lookup container key dot] else [])
  | _ => []

/-- How many roles a carrier has. -/
def wildcardCount : Expr → Nat
  | ref _ indices => indices.countP isWildcard
  | e => e.wildcardSteps.length

def isReference : Expr → Bool
  | ref _ _ => true
  | _ => false

mutual

/-- The carriers of a tree outside all scopes, outer ones first. A chain is one carrier, so its
inner steps, for which `inChain` is set, are not carriers of their own. -/
def carriers (inChain : Bool) : Expr → Except Error (List Expr)
  | wildcard => raise .misplacedWildcard
  | literal _ | symbol _ | sum _ | sumOver _ _ | each _ => .ok []
  | ref name indices => do
    let inner ← carriersOfIndices indices
    pure (if indices.any isWildcard then ref name indices :: inner else inner)
  | lookup container key dot => do
    let root ← carriers true container
    let keys ← match key with
      | wildcard => pure []
      | _ => carriers false key
    let chain := lookup container key dot
    pure (if !inChain && !chain.wildcardSteps.isEmpty then chain :: (root ++ keys)
      else root ++ keys)
  | arith _ left right | compare _ left right | range left right => do
    let l ← carriers false left
    let r ← carriers false right
    pure (l ++ r)
  | negate operand | abs operand | piecewise operand _ _ _ => carriers false operand
  | aggregate _ [_] => .ok []
  | aggregate _ args => carriersOfAll args
  | ifThenElse cond thenBranch elseBranch => do
    let c ← carriers false cond
    let t ← carriers false thenBranch
    let e ← carriers false elseBranch
    pure (c ++ t ++ e)

/-- The carriers of some trees, in order. -/
def carriersOfAll : List Expr → Except Error (List Expr)
  | [] => .ok []
  | e :: rest => do
    let first ← carriers false e
    let others ← carriersOfAll rest
    pure (first ++ others)

/-- A wildcard may stand for an index. -/
def carriersOfIndices : List Expr → Except Error (List Expr)
  | [] => .ok []
  | e :: rest => do
    let first ← match e with
      | wildcard => pure []
      | _ => carriers false e
    let others ← carriersOfIndices rest
    pure (first ++ others)

end

mutual

/-- Replace the k-th wildcard of every carrier by the k-th value, outside all scopes. The number
says how many wildcards the steps of a chain have used up; it is zero for other nodes. -/
def substituteStep (values : List Value) : Expr → Except Error (Expr × Nat)
  | wildcard => raise .misplacedWildcard
  | literal value => .ok (literal value, 0)
  | symbol name => .ok (symbol name, 0)
  | sum args => .ok (sum args, 0)
  | sumOver body generators => .ok (sumOver body generators, 0)
  | each pattern => .ok (each pattern, 0)
  | ref name indices => do
    let new ← substituteIndices values indices 0
    pure (ref name new, 0)
  | lookup container key dot => do
    let (c, used) ← substituteStep values container
    match key with
    | wildcard =>
      match values[used]? with
      | some value => pure (lookup c (literal value) dot, used + 1)
      | none => breakDown .outOfRange
    | _ => do
      let (k, _) ← substituteStep values key
      pure (lookup c k dot, used)
  | arith op left right => do
    let (l, _) ← substituteStep values left
    let (r, _) ← substituteStep values right
    pure (arith op l r, 0)
  | compare op left right => do
    let (l, _) ← substituteStep values left
    let (r, _) ← substituteStep values right
    pure (compare op l r, 0)
  | range start stop => do
    let (a, _) ← substituteStep values start
    let (b, _) ← substituteStep values stop
    pure (range a b, 0)
  | negate operand => do
    let (e, _) ← substituteStep values operand
    pure (negate e, 0)
  | abs operand => do
    let (e, _) ← substituteStep values operand
    pure (abs e, 0)
  | piecewise operand breakpoints slopes intercepts => do
    let (e, _) ← substituteStep values operand
    pure (piecewise e breakpoints slopes intercepts, 0)
  | aggregate op [arg] => .ok (aggregate op [arg], 0)
  | aggregate op args => do
    let new ← substituteAll values args
    pure (aggregate op new, 0)
  | ifThenElse cond thenBranch elseBranch => do
    let (c, _) ← substituteStep values cond
    let (t, _) ← substituteStep values thenBranch
    let (e, _) ← substituteStep values elseBranch
    pure (ifThenElse c t e, 0)

def substituteAll (values : List Value) : List Expr → Except Error (List Expr)
  | [] => .ok []
  | e :: rest => do
    let (first, _) ← substituteStep values e
    let others ← substituteAll values rest
    pure (first :: others)

/-- The indices of a reference, of which `used` wildcards have been replaced. -/
def substituteIndices (values : List Value) : List Expr → Nat → Except Error (List Expr)
  | [], _ => .ok []
  | e :: rest, used =>
    match e with
    | wildcard =>
      match values[used]? with
      | some value => do
        let others ← substituteIndices values rest (used + 1)
        pure (literal value :: others)
      | none => breakDown .exhausted
    | _ => do
      let (first, _) ← substituteStep values e
      let others ← substituteIndices values rest used
      pure (first :: others)

end

/-- Replace the wildcards of a tree by values. -/
def substitute (values : List Value) (e : Expr) : Except Error Expr := do
  let (result, _) ← substituteStep values e
  pure result

/-- The pattern whose instances an aggregate of a single argument joins, if it joins instances. -/
def pattern? : Expr → Option Expr
  | aggregate _ [each pattern] => some pattern
  | aggregate _ [arg] => if arg.hasWildcard then some arg else none
  | _ => none

end Expr

namespace Wildcard

/-- The index tuples of a family that match, given the values of the earlier roles: `none` stands
for a wildcard whose value is still open. -/
def matchesPattern : List (Option Value) → List Value → Bool
  | [], [] => true
  | none :: pattern, _ :: index => matchesPattern pattern index
  | some p :: pattern, v :: index => p.equal v && matchesPattern pattern index
  | _, _ => false

/-- The pattern of a reference's indices, of which `seen` wildcards came before, and the position of
the role's own wildcard. -/
def indexPattern (reference : Expr) (name : Value) (context : Context) (role : Nat)
    (assigned : List Value) :
    List Expr → Nat → Nat → Except Error (List (Option Value) × Option Nat)
  | [], _, _ => .ok ([], none)
  | index :: rest, seen, position => do
    if index.isWildcard then
      let here := if seen < role then assigned[seen]? else none
      let (pattern, place) ←
        indexPattern reference name context role assigned rest (seen + 1) (position + 1)
      pure (here :: pattern, if seen = role then some position else place)
    else
      let value ← resolveIndex reference name context index
      let (pattern, place) ←
        indexPattern reference name context role assigned rest seen (position + 1)
      pure (some value :: pattern, place)

/-- Values without repetition. -/
def distinct (values : List Value) : List Value :=
  values.foldl (fun done v => if done.any (·.same v) then done else done ++ [v]) []

/-- The values of a role at a variable reference: those that declared instances have in its place.
-/
def familyDomain (registry : Option Model) (context : Context) (role : Nat) (assigned : List Value)
    (name : Value) (indices : List Expr) : Except Error (List Value) := do
  let reference := Expr.ref name indices
  let tuples ← match registry, name with
    | some m, .str family =>
      match m.family? family with
      | some tuples => pure tuples
      | none => raise (.wildcardFamily reference name)
    | some _, _ =>
      if name.isKey then raise (.wildcardFamily reference name) else breakDown .unsupported
    | none, _ => raise (.wildcardFamily reference name)
  let (pattern, place) ← indexPattern reference name context role assigned indices 0 0
  pure (distinct (tuples.filterMap fun index =>
    if matchesPattern pattern index then place.bind (index[·]?) else none))

/-- The values of a role at a lookup chain: the keys or positions of the container at its step. -/
def containerDomain (context : Context) (role : Nat) (assigned : List Value) (chain : Expr) :
    Except Error (List Value) :=
  match chain.wildcardSteps[role]? with
  | some (.lookup container _ _) => do
    let value ← (← container.substitute assigned).evaluate context
    match value with
    | .table entries => pure (entries.map (·.1))
    | _ =>
      match value.length? with
      | some length => Value.rangeList 0 length 1
      | none => raise (.wildcardContainer chain container)
  | _ => breakDown .outOfRange

/-- The values that all domains share, in the order of the first. -/
def intersect : List (List Value) → List Value
  | [] => []
  | first :: rest => first.filter fun v => rest.all fun other => other.any (·.same v)

/-- The values of one role, given those of the roles before it. References decide alone if any of
them takes part. -/
def roleDomain (registry : Option Model) (context : Context) (carriers : List Expr)
    (assigned : List Value) : Except Error (List Value) := do
  let role := assigned.length
  let taking := carriers.filter fun c => role < c.wildcardCount
  let references := taking.filter Expr.isReference
  let domains ←
    if references.isEmpty then taking.mapM (containerDomain context role assigned)
    else references.mapM fun
      | .ref name indices => familyDomain registry context role assigned name indices
      | _ => pure []
  pure (intersect domains)

/-- All ways to give values to the remaining roles. -/
def assignments (registry : Option Model) (context : Context) (carriers : List Expr) :
    Nat → List Value → Listing (List Value)
  | 0, assigned => ⟨[assigned], none⟩
  | roles + 1, assigned =>
    match roleDomain registry context carriers assigned with
    | .error e => ⟨[], some e⟩
    | .ok values =>
      Listing.chain
        (fun value => assignments registry context carriers roles (assigned ++ [value])) values

/-- Whether a reference, once its wildcards have values, names a declared instance. -/
def isDeclared (registry : Option Model) (context : Context) (values : List Value)
    (carrier : Expr) : Except Error Bool := do
  match ← carrier.substitute values with
  | .ref name indices =>
    let index ← resolveIndices name indices context
    match registry with
    | some m => m.declares name index
    | none => breakDown .noAttribute
  | _ => pure true

/-- Whether all references name declared instances, up to the first that does not. -/
def allDeclared (registry : Option Model) (context : Context) (values : List Value) :
    List Expr → Except Error Bool
  | [] => .ok true
  | carrier :: rest => do
    if ← isDeclared registry context values carrier then
      allDeclared registry context values rest
    else pure false

/-- The instances of a tree: one for each way to give values to its roles that names declared
instances only. -/
def expand (registry : Option Model) (context : Context) (e : Expr) :
    Except Error (List Expr) := do
  let carriers ← e.carriers false
  if carriers.isEmpty then pure [e]
  else
    let roles := carriers.foldl (fun n c => max n c.wildcardCount) 0
    let references := carriers.filter Expr.isReference
    (assignments registry context carriers roles []).foldM (fun done values => do
      if ← allDeclared registry context values references then
        let instance_ ← e.substitute values
        pure (done ++ [instance_])
      else pure done) []

end Wildcard

end LinearProgram
