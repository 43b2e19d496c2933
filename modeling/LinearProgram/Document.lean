import LinearProgram.Expr.Build

/-!
# Model documents

A model document is a JSON object with a name, a parameter table and a list of statements. The JSON
form of a tree is a number, a name, or an object whose keys tell the node: `lit`, `var`, `get`,
`dot` or `op`. In the place of an array any value that has items will do.
-/

namespace LinearProgram

/-- What a document asks for. -/
inductive Statement where
  /-- One variable instance for each binding. -/
  | variableFamily (name : Value) (generators : List GeneratorItem) (kind : Value)
      (lower upper : Datum) (description : Value)
  /-- One constraint for each binding. -/
  | constraintFamily (op : Comparison) (left right : Expr) (generators : List GeneratorItem)
      (description : Value)
  | objective (expr : Expr) (direction : Value)

/-- A statement with the names of its fields. -/
def Statement.text? : Statement → Option String
  | .variableFamily name generators kind lower upper description => do
    let g ← Expr.textItems? generators
    let l ← Expr.textDatum? lower
    let u ← Expr.textDatum? upper
    pure ("VariablesDecl(name=" ++ name.quoted ++ ", generators=" ++ Value.tupleText g
      ++ ", kind=" ++ kind.quoted ++ ", min_bound=" ++ l ++ ", max_bound=" ++ u
      ++ ", description=" ++ description.quoted ++ ")")
  | .constraintFamily op left right generators description => do
    let c ← (Expr.compare op left right).text?
    let g ← Expr.textItems? generators
    pure ("ConstraintsDecl(constraint=" ++ c ++ ", generators=" ++ Value.tupleText g
      ++ ", description=" ++ description.quoted ++ ")")
  | .objective expr direction => do
    let e ← expr.text?
    pure ("ObjectiveDecl(expr=" ++ e ++ ", direction=" ++ direction.quoted ++ ")")

/-- A document that has been read. -/
structure Document where
  name : Value
  parameters : Entries
  statements : List Statement

namespace Value

mutual

/-- How deep values are nested. -/
def depth : Value → Nat
  | list items | tuple items | set items => 1 + depthItems items
  | foreign _ core _ => 1 + depth core
  | table entries => 1 + depthEntries entries
  | record fields => 1 + depthFields fields
  | none | number _ | str _ | range _ _ _ | cell _ => 1

def depthItems : List Value → Nat
  | [] => 0
  | item :: rest => max (depth item) (depthItems rest)

def depthEntries : List (Value × Value) → Nat
  | [] => 0
  | (key, value) :: rest => max (max (depth key) (depth value)) (depthEntries rest)

def depthFields : List (String × Value) → Nat
  | [] => 0
  | (_, value) :: rest => max (depth value) (depthFields rest)

end

/-- The items of a value that stands for an array in a document. -/
def items : Value → Except Error (List Value)
  | list items | tuple items => .ok items
  | str s => .ok (s.toList.map fun c => str (String.singleton c))
  | table entries => .ok (entries.map (·.1))
  | range start stop step => rangeList start stop step
  | set items | foreign _ (list items) _ => .ok items
  | _ => breakDown .unsupported

end Value

namespace Document

/-- Refuse a document. -/
def refuse {α : Type} (fault : DocumentFault) : Except Error α := raise (.document fault)

/-- The items under a key, none if the key is missing. -/
def itemsAt (entries : Entries) (key : String) : Except Error (List Value) :=
  match Entries.named? entries key with
  | some value => value.items
  | none => .ok []

/-- An operator of one argument. -/
def unary (op : String) (build : Expr → Except Error Expr) : List Expr → Except Error Expr
  | [operand] => build operand
  | args => refuse (.argumentCount op 1 args.length)

/-- An operator of two arguments. -/
def binary (op : String) (build : Expr → Expr → Expr) : List Expr → Except Error Expr
  | [left, right] => .ok (build left right)
  | args => refuse (.argumentCount op 2 args.length)

/-- An arithmetic operator joins its arguments from the left; a single minus negates. -/
def arithmetic (op : Arithmetic) (args : List Expr) : Except Error Expr :=
  match op, args with
  | .sub, [operand] => .ok (.negate operand)
  | _, first :: second :: rest => .ok ((second :: rest).foldl (Expr.arith op) first)
  | _, _ => refuse (.tooFewArguments op.sign 2)

/-- The aggregate of a word. -/
def aggregateNamed? : String → Option Aggregate
  | "max" => some .max
  | "min" => some .min
  | "and" => some .and
  | "or" => some .or
  | _ => none

/-- A field that a piecewise function must have. -/
def piecewiseField (entries : Entries) (key : String) : Except Error Value :=
  match Entries.named? entries key with
  | some value => .ok value
  | none => refuse (.piecewise (Quoted.quote key))

/-- A piecewise function whose faults are reported as the document's. -/
def piecewise (entries : Entries) (operand : Expr) : Except Error Expr := do
  let breakpoints ← piecewiseField entries "breakpoints"
  let slopes ← piecewiseField entries "slopes"
  let intercepts ← piecewiseField entries "intercepts"
  match Expr.piecewiseOf operand (← breakpoints.items) (← slopes.items) (← intercepts.items) with
  | .error (.refused cause) => refuse (.piecewise (cause.message?.getD ""))
  | result => result

/-- The node of an operator and its arguments. -/
def operator (op : Value) (entries : Entries) (args : List Expr) : Except Error Expr :=
  match op with
  | .str "neg" => unary "neg" (fun operand => .ok (.negate operand)) args
  | .str "sum" => .ok (.sum args)
  | .str "each" => unary "each" (fun pattern => .ok (.each pattern)) args
  | .str "abs" => unary "abs" (fun operand => .ok (.abs operand)) args
  | .str "if" =>
    match args with
    | [cond, thenBranch, elseBranch] => .ok (.ifThenElse cond thenBranch elseBranch)
    | _ => refuse (.argumentCount "if" 3 args.length)
  | .str "range" => binary "range" .range args
  | .str "piecewise" => unary "piecewise" (piecewise entries) args
  | .str s =>
    match Arithmetic.ofSign? s, Comparison.ofSign? s, aggregateNamed? s with
    | some sign, _, _ => arithmetic sign args
    | none, some sign, _ => binary s (.compare sign) args
    | none, none, some word =>
      if args.isEmpty then refuse (.tooFewArguments s 1) else .ok (.aggregate word args)
    | none, none, none => refuse (.unknownOperator op)
  | _ => if op.isKey then refuse (.unknownOperator op) else breakDown .unsupported

/-- A lookup chain: its root, then its keys. -/
def chain (read : Value → Except Error Expr) (dot : Bool) : List Value → Except Error Expr
  | [] => breakDown (.malformed "not enough values to unpack (expected at least 1, got 0)")
  | root :: keys => do
    let start ← read root
    keys.foldlM (fun inner key => do Expr.lookupStep inner (← read key) dot) start

/-- What an object stands for, which its keys tell. -/
inductive Node where
  | literal (value : Value)
  | reference (name : Value)
  | dotted (steps : Value)
  | bracketed (steps : Value)
  /-- A sum over bindings. -/
  | summation (body : Value)
  | operation (op : Value)
  | unknown

/-- The node of an operator: a sum with a body goes over bindings. -/
def operatorNode (op : Value) (body : Option Value) : Node :=
  match op, body with
  | .str "sum", some body => .summation body
  | _, _ => .operation op

/-- The first of the telling keys decides. -/
def node (entries : Entries) : Node :=
  match Entries.named? entries "lit", Entries.named? entries "var", Entries.named? entries "dot",
    Entries.named? entries "get", Entries.named? entries "op" with
  | some value, _, _, _, _ => .literal value
  | none, some name, _, _, _ => .reference name
  | none, none, some steps, _, _ => .dotted steps
  | none, none, none, some steps, _ => .bracketed steps
  | none, none, none, none, some op => operatorNode op (Entries.named? entries "body")
  | none, none, none, none, none => .unknown

/-- Read an object, whose parts are read as given. -/
def readNode (expr : Value → Except Error Expr) (binding : Value → Except Error GeneratorItem)
    (entries : Entries) : Except Error Expr :=
  match node entries with
  | .literal value => .ok (.literal value)
  | .reference name => do
    let indices ← (← itemsAt entries "index").mapM expr
    pure (.ref name indices)
  | .dotted steps => do chain expr true (← steps.items)
  | .bracketed steps => do chain expr false (← steps.items)
  | .summation body => do
    let _ ← (← itemsAt entries "args").mapM expr
    let generators ← (← itemsAt entries "over").mapM binding
    let b ← expr body
    pure (.sumOver b generators)
  | .operation op => do
    let args ← (← itemsAt entries "args").mapM expr
    operator op entries args
  | .unknown => refuse (.expression (.table entries))

/-- Read a tree, whose parts are read as given. -/
def readTree (expr : Value → Except Error Expr) (binding : Value → Except Error GeneratorItem) :
    Value → Except Error Expr
  | .number (.bool _) => refuse .booleanExpression
  | .number x => .ok (.literal (.number x))
  | .str s => .ok (if s == "_" then .wildcard else .symbol s)
  | .table entries => readNode expr binding entries
  | data => refuse (.expression data)

/-- Read a pair of a name and a domain, or an object with a filter. A domain that is an array is
data. -/
def readBinding (expr : Value → Except Error Expr) : Value → Except Error GeneratorItem
  | .table entries =>
    match Entries.named? entries "filter" with
    | some cond => do pure (.filter (← expr cond))
    | none => refuse (.generator (.table entries))
  | .list [.str name, .list items] => .ok (.ranging name (.data (.list items)))
  | .list [.str name, domain] => do pure (.ranging name (.tree (← expr domain)))
  | data => refuse (.generator data)

mutual

/-- The tree that a JSON value stands for. The fuel is the depth of the value. -/
def readExpr : Nat → Value → Except Error Expr
  | 0, data => refuse (.expression data)
  | fuel + 1, data => readTree (readExpr fuel) (readGenerator fuel) data

def readGenerator : Nat → Value → Except Error GeneratorItem
  | 0, data => refuse (.generator data)
  | fuel + 1, data => readBinding (readExpr fuel) data

end

end Document

/-- The tree that a JSON value stands for. -/
def Expr.ofJson (data : Value) : Except Error Expr := Document.readExpr data.depth data

/-- The generator or filter of a JSON value. -/
def GeneratorItem.ofJson (data : Value) : Except Error GeneratorItem :=
  Document.readGenerator data.depth data

namespace Document

/-- A bound: numbers, text and nothing stay as they are, anything else is a tree. -/
def readBound (data : Option Value) : Except Error Datum :=
  match data with
  | none | some .none => .ok (.data .none)
  | some (.number x) => .ok (.data (.number x))
  | some (.str s) => .ok (.data (.str s))
  | some value => do pure (.tree (← Expr.ofJson value))

/-- The value under a key, which may be missing. -/
def optional (entries : Entries) (key : String) : Value := (entries.named? key).getD .none

end Document

/-- The statement that a JSON object stands for. -/
def Statement.ofJson (data : Value) : Except Error Statement :=
  match data with
  | .table entries => do
    let generators ← (← Document.itemsAt entries "over").mapM GeneratorItem.ofJson
    match Entries.named? entries "variables", Entries.named? entries "constraint",
        Entries.named? entries "objective" with
    | some name, _, _ => do
      let lower ← Document.readBound (Entries.named? entries "min_bound")
      let upper ← Document.readBound (Entries.named? entries "max_bound")
      let kind := (Entries.named? entries "kind").getD (.str "continuous")
      pure (.variableFamily name generators kind lower upper
        (Document.optional entries "description"))
    | none, some constraint, _ => do
      match ← Expr.ofJson constraint with
      | .compare op left right =>
        pure (.constraintFamily op left right generators
          (Document.optional entries "description"))
      | _ => Document.refuse (.notComparison constraint)
    | none, none, some goal => do
      let e ← Expr.ofJson goal
      pure (.objective e ((Entries.named? entries "direction").getD (.str "minimize")))
    | none, none, none => Document.refuse (.unknownStatement data)
  | _ => Document.refuse (.statementShape data)

namespace Document

/-- The document that a JSON object stands for. -/
def ofJson (data : Value) : Except Error Document :=
  match data with
  | .table entries =>
    match (Entries.named? entries "parameters").getD (.table []) with
    | .table parameters => do
      let statements ← (← itemsAt entries "statements").mapM Statement.ofJson
      pure ⟨optional entries "name", parameters, statements⟩
    | _ => refuse .parameters
  | _ => refuse .topLevel

/-- Read a document from text. -/
def parse (text : String) : Except Error Document :=
  match Json.parse text with
  | .ok data => ofJson data
  | .error e =>
    match e.limit? with
    | some reason => breakDown (.malformed reason)
    | none => refuse (.unreadable e)

end Document

end LinearProgram
