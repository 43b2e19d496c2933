import LinearProgram.Number.Reader

/-!
# Command-line arguments

Options may stand before and after the model file. A value follows its option as the next argument,
after an equals sign or, for short options, in the same argument. `--` ends the options. Of a
repeated option the last value counts; only `--set` collects its values.
-/

namespace LinearProgram.Command

/-- Options with a value. -/
inductive ValueOption where
  | params | set | output | slack
  deriving Repr, DecidableEq

inductive Flag where
  | dryRun | verbose | version | help
  deriving Repr, DecidableEq

def ValueOption.ofLong? : String → Option ValueOption
  | "--params" => some params
  | "--set" => some set
  | "--output" => some output
  | "--big-m-slack" => some slack
  | _ => none

def ValueOption.ofShort? : Char → Option ValueOption
  | 'p' => some params
  | 'o' => some output
  | _ => none

def Flag.ofLong? : String → Option Flag
  | "--dry-run" => some dryRun
  | "--verbose" => some verbose
  | "--version" => some version
  | "--help" => some help
  | _ => none

/-- The arguments of the command. -/
structure Arguments where
  positional : List String := []
  params : Option String := none
  overrides : List String := []
  output : Option String := none
  slack : Option String := none
  dryRun : Bool := false
  verbose : Bool := false
  /-- The first option that only asks for information. -/
  inquiry : Option Flag := none
  deriving Repr

namespace Arguments

/-- The arguments with an option set. -/
def setValue (a : Arguments) (value : String) : ValueOption → Arguments
  | .params => { a with params := some value }
  | .set => { a with overrides := a.overrides ++ [value] }
  | .output => { a with output := some value }
  | .slack => { a with slack := some value }

def setFlag (a : Arguments) : Flag → Arguments
  | .dryRun => { a with dryRun := true }
  | .verbose => { a with verbose := true }
  | inquiry => { a with inquiry := a.inquiry <|> some inquiry }

end Arguments

/-- How far the arguments have been read. -/
structure Reading where
  arguments : Arguments := {}
  /-- The option that waits for its value. -/
  pending : Option ValueOption := none
  ended : Bool := false

namespace Reading

def addPositional (r : Reading) (arg : String) : Reading :=
  { r with arguments := { r.arguments with positional := r.arguments.positional ++ [arg] } }

def give (r : Reading) (option : ValueOption) (value : String) : Reading :=
  { r with arguments := r.arguments.setValue value option, pending := none }

/-- An option in long form, with or without a value of its own. -/
def readLong (r : Reading) (arg : String) : Option Reading :=
  let cs := arg.toList
  let name := cs.takeWhile (· ≠ '=')
  let word := String.ofList name
  match ValueOption.ofLong? word, cs.drop name.length with
  | some option, [] => some { r with pending := some option }
  | some option, _ :: value => some (r.give option (String.ofList value))
  | none, [] => (Flag.ofLong? word).map fun flag =>
    { r with arguments := r.arguments.setFlag flag }
  | none, _ => none

/-- An option in short form. -/
def readShort (r : Reading) : List Char → Option Reading
  | [] => none
  | [c] => (ValueOption.ofShort? c).map fun option => { r with pending := some option }
  | c :: value => (ValueOption.ofShort? c).map fun option => r.give option (String.ofList value)

/-- Read one argument; `none` if no option has this form. -/
def step (r : Reading) (arg : String) : Option Reading :=
  match r.pending with
  | some option => some (r.give option arg)
  | none =>
    if r.ended then some (r.addPositional arg)
    else
      match arg.toList with
      | ['-', '-'] => some { r with ended := true }
      | '-' :: '-' :: _ => r.readLong arg
      | '-' :: c :: rest => r.readShort (c :: rest)
      | _ => some (r.addPositional arg)

end Reading

/-- Read a command line; `none` if it is malformed. -/
def Arguments.parse (args : List String) : Option Arguments := do
  let r ← args.foldlM Reading.step {}
  if r.pending.isSome then none else pure r.arguments

end LinearProgram.Command
