import LinearProgram.Declaration
import LinearProgram.Number.Reader

/-!
# LP text

The written form of a model: the objective, the rows, the bounds of variables that are not binary,
and the names of integer and binary variables, in the order of declaration.
-/

namespace LinearProgram

/-- The objective; a model without one minimizes zero. -/
def Model.goal (m : Model) : Objective :=
  m.objective.getD { polynomial := Polynomial.const (.int 0), direction := .minimize }

namespace LpText

/-- A number: infinities by a word of their own, whole numbers without a point. -/
def number (config : Config) (x : Number) : Except Error String :=
  if x.equal .infinity then .ok config.infinityText
  else if x.equal .negInfinity then .ok ("-" ++ config.infinityText)
  else do
    let f ← orOverflow x.toFloat?
    match x.whole? with
    | some n => pure (toString n)
    | none => pure (Number.float f).text

/-- A number by itself. An infinity is the word for it as it was given. -/
def numberWord (config : Config) (x : Number) : Except Error Value :=
  if x.equal .infinity then .ok config.infinityWord else (number config x).map .str

/-- A value as a number: text counts if it reads as one, and then a whole number must be written as
an integer. -/
def valueWord (config : Config) : Value → Except Error Value
  | .number x | .cell x => numberWord config x
  | .str s =>
    match FloatReader.read? s with
    | none => breakDown (.malformed "")
    | some x =>
      if (Number.float x).whole?.isNone then .ok (.str (Number.float x).text)
      else
        match FloatReader.integer? s with
        | some n => .ok (.str (Number.int n).text)
        | none => breakDown (.malformed "")
  | _ => breakDown .unsupported

/-- A term without its sign. -/
def term (config : Config) (m : Model) (key : VarKey) (coefficient : Number) :
    Except Error String :=
  match m.declared? key with
  | none => breakDown .missingKey
  | some v =>
    if coefficient.abs.equal (.int 1) then .ok v.name
    else do pure ((← number config coefficient.abs) ++ " " ++ v.name)

/-- The terms after the first, each with its sign. -/
def laterTerms (config : Config) (m : Model) :
    List (VarKey × Number) → Except Error (List String)
  | [] => .ok []
  | t :: rest => do
    let shown ← term config m t.1 t.2
    let others ← laterTerms config m rest
    pure (((if t.2.less (.int 0) then "- " else "+ ") ++ shown) :: others)

/-- The terms of a polynomial, or a zero if it has none. -/
def terms (config : Config) (m : Model) (p : Polynomial) : Except Error String :=
  match p.terms with
  | [] => .ok "0"
  | first :: rest => do
    let shown ← term config m first.1 first.2
    let others ← laterTerms config m rest
    pure (" ".intercalate
      ((if first.2.less (.int 0) then "- " ++ shown else shown) :: others))

/-- The first line of the objective. -/
def header : Direction → String
  | .maximize => "Maximize"
  | .minimize => "Minimize"

/-- The objective's terms and, unless it is zero, its constant. -/
def goalText (config : Config) (m : Model) : Except Error String := do
  let shown ← terms config m m.goal.polynomial
  let constant := m.goal.polynomial.constant
  if constant.truthy then do
    let sign := if constant.less (.int 0) then " - " else " + "
    pure (shown ++ sign ++ (← number config constant.abs))
  else pure shown

/-- The section of the objective: its direction and the labelled expression. -/
def objectiveLines (config : Config) (m : Model) : Except Error (List String) := do
  pure [header m.goal.direction, " " ++ Objective.label ++ ": " ++ (← goalText config m)]

def relationSign : Relation → String
  | .equal => "="
  | other => other.sign

/-- A row in normal form under its name. -/
def row (config : Config) (m : Model) (c : Constraint) : Except Error String := do
  let (linear, rhs) ← c.normalized
  let shown ← terms config m linear
  pure (" " ++ c.name ++ ": " ++ shown ++ " " ++ relationSign c.relation ++ " "
    ++ (← number config rhs))

/-- The bounds of a variable. -/
def bounds (config : Config) (name : String) (lower upper : Number) : Except Error String :=
  if lower.equal .negInfinity && upper.equal .infinity then .ok (name ++ " free")
  else if lower.equal upper then do pure (name ++ " = " ++ (← number config lower))
  else if upper.equal .infinity then do pure (name ++ " >= " ++ (← number config lower))
  else do
    let low ← number config lower
    let high ← number config upper
    pure (low ++ " <= " ++ name ++ " <= " ++ high)

/-- A section under its header; an empty one is left out. -/
def section_ (header : String) (lines : List String) : List String :=
  if lines.isEmpty then [] else header :: lines.map (" " ++ ·)

/-- The names of the variables of a kind. -/
def namesOfKind (m : Model) (kind : VariableKind) : List String :=
  (m.columns.filter (·.kind == kind)).map (·.name)

/-- The lines of a model. -/
def lines (config : Config) (m : Model) : Except Error (List String) := do
  let title := if m.name.truthy then ["\\ Model " ++ m.name.text] else []
  let objective ← objectiveLines config m
  let rows ← m.constraints.mapM (row config m)
  let bounded := m.columns.filter (·.kind != .binary)
  let limits ← bounded.mapM fun v => bounds config v.name v.bounds.1 v.bounds.2
  pure (title ++ objective ++ ["Subject To"] ++ rows ++ section_ "Bounds" limits
    ++ section_ "General" (namesOfKind m .integer) ++ section_ "Binary" (namesOfKind m .binary)
    ++ ["End"])

/-- The text of a model. -/
def render (config : Config) (m : Model) : Except Error String := do
  pure ("\n".intercalate (← lines config m) ++ "\n")

end LpText

end LinearProgram
