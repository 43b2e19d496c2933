import LinearProgram.Command.Files
import LinearProgram.Command.Options
import LinearProgram.Compilation.Statement
import LinearProgram.LpText
import LinearProgram.Parameters

/-!
# The command

`Command.run` is the whole command as a function: from the arguments, the host and the files to what
it prints, what it writes and how it ends. A dry run prints figures instead of the LP text.
-/

namespace LinearProgram.Command

/-- What a run of the command leaves behind. -/
structure Outcome where
  exitCode : Nat := 0
  stdout : String := ""
  stderr : String := ""
  written : Option (String × String) := none
  /-- An error that the command does not report itself. -/
  failure : Option Error := none

namespace Outcome

/-- The answer to wrong arguments. -/
def usage : Outcome :=
  { exitCode := 2
    stderr := "Usage: main [OPTIONS] MODEL_FILE\nTry 'main --help' for help.\n" }

def report (stderr message : String) : Outcome :=
  { exitCode := 1, stderr := stderr ++ "Error: " ++ message ++ "\n" }

def fail (stderr : String) (e : Error) : Outcome := { exitCode := 1, stderr, failure := some e }

end Outcome

/-- What the command is asked to do. -/
structure Job where
  document : Document
  parameters : Entries
  config : Config

/-- Overrides in the order of their first mention, each with its last value. -/
def collectOverrides (texts : List String) : Except Error Scope :=
  texts.foldlM (fun (done : Scope) text => do
    let (path, value) ← Parameters.parseOverride text
    pure (done.put path value)) []

/-- The parameters of a document under a parameter file and overrides. -/
def jobParameters (own : Entries) (file : Option String) (overrides : List String) :
    Except Error Entries := do
  let base ← match file with
    | none => pure own
    | some text => do
      let given ← Parameters.parse text
      pure (given.foldl (fun (done : Entries) entry => done.put entry.1 entry.2) own)
  if overrides.isEmpty then pure base
  else
    let object := Object.ofValue (.table base)
    match (← Parameters.applyOverrides object (← collectOverrides overrides)).content with
    | .table entries => pure entries
    | _ => breakDown .unsupported

/-- Read what the arguments name. -/
def prepare (model : String) (params : Option String) (overrides : List String) (slack : Float) :
    Except Error Job := do
  let document ← Document.parse model
  let parameters ← jobParameters document.parameters params overrides
  let config ← Config.checked { bigMSlack := .float slack }
  pure { document, parameters, config }

/-- The message of an error in the input; other errors are not reported. -/
def inputMessage? : Error → Option String
  | .refused cause =>
    match cause.kind with
    | .invalid | .badPath => cause.message?
    | _ => none
  | .broken (.malformed reason) => some reason
  | .broken _ => none

/-- The message of a failed compilation; other errors are not reported. -/
def compileMessage? : Error → Option String
  | .refused cause => do
    let name ← cause.kind.compileName?
    let message ← cause.message?
    pure (name ++ ": " ++ message)
  | .broken _ => none

/-- End with a report if an error has a message for it. -/
def Outcome.ofError (stderr : String) (message? : Error → Option String) (e : Error) : Outcome :=
  match message? e with
  | some message => .report stderr message
  | none => .fail stderr e

/-- The log as shown: everything if asked for, else warnings. -/
def logText (verbose : Bool) (log : List LogRecord) : String :=
  String.join ((log.reverse.filter fun r => verbose || r.level == .warning).map fun r =>
    r.text ++ "\n")

/-- The figures of a model, one a line. -/
def statisticsText (s : Statistics) : String :=
  "\nModel statistics:\n" ++ String.join (s.entries.map fun (name, n) =>
    "  " ++ name ++ ": " ++ toString n ++ "\n")

def announceText (job : Job) : String :=
  "Compiling " ++ toString job.document.statements.length ++ " statement(s) with "
    ++ toString job.parameters.length ++ " parameter(s)...\n"

def summaryText (s : Statistics) : String :=
  "Model has " ++ toString s.columns ++ " variable(s) (" ++ toString s.auxiliary
    ++ " auxiliary), " ++ toString s.constraints ++ " constraint(s)\n"

/-- Put the LP text where it belongs: into a file, or to the output. -/
def deliver (files : Files) (output : Option String) (stderr text : String) : Outcome :=
  match output.filter (!·.isEmpty) with
  | none => { stdout := text, stderr }
  | some path =>
    match files.obstacle? path with
    | some breakdown => .fail stderr (.broken breakdown)
    | none => { stderr := stderr ++ "Written to " ++ path ++ "\n", written := some (path, text) }

/-- Compile a document; a dry run only counts. -/
def compileJob (host : Host) (files : Files) (a : Arguments) (job : Job) : Outcome :=
  let table := Scope.ofEntries (Parameters.asArrays host job.parameters)
  let (result, store) :=
    Compilation.define job.config { table, host } job.document.name job.document.statements
  let stderr := announceText job ++ logText a.verbose store.log
  match result with
  | .error e => .ofError stderr compileMessage? e
  | .ok () =>
    let statistics := store.model.statistics
    let stderr := stderr ++ summaryText statistics
    if a.dryRun then { stdout := statisticsText statistics, stderr }
    else
      match LpText.render job.config store.model with
      | .error e => .fail stderr e
      | .ok text => deliver files a.output stderr text

def versionText : String := "main, version 0.1.0\n"

def helpLines : List String :=
  ["Usage: main [OPTIONS] MODEL_FILE",
   "",
   "  Compile a JSON optimization model into CPLEX LP format.",
   "",
   "  Examples:",
   "",
   "      lp-compile diet.json -o diet.lp",
   "",
   "      lp-compile diet.json -p prices.json --set budget=120",
   "",
   "      lp-compile diet.json --dry-run",
   "",
   "Options:",
   "  -p, --params FILE    JSON parameter table merged over the model's own",
   "                       parameters",
   "  --set PATH=VALUE     Override one parameter by dotted path (repeatable)",
   "  -o, --output PATH    Output file path (stdout if not specified)",
   "  --big-m-slack FLOAT  Multiplier applied to big-M constants  [default: 1.0]",
   "  --dry-run            Compile and report model statistics without writing LP",
   "                       text",
   "  --verbose            Log compilation details",
   "  --version            Show the version and exit.",
   "  --help               Show this message and exit."]

def helpText : String := String.join (helpLines.map (· ++ "\n"))

/-- The slack that is asked for. -/
def slackOf : Option String → Option Float
  | none => some 1.0
  | some text => FloatReader.read? text

/-- The text of an optional file, which must be there if it is named. -/
def optionalText (files : Files) : Option String → Option (Option String)
  | none => some none
  | some path => (files.text? path).map some

/-- Run the command on well-formed arguments that ask for a compilation. -/
def compileFiles (host : Host) (files : Files) (a : Arguments) : Outcome :=
  match a.positional with
  | [path] =>
    match files.text? path, optionalText files a.params, slackOf a.slack with
    | some model, some params, some slack =>
      match prepare model params a.overrides slack with
      | .error e => .ofError "" inputMessage? e
      | .ok job => compileJob host files a job
    | _, _, _ => .usage
  | _ => .usage

/-- Run the command. -/
def run (host : Host) (files : Files) (args : List String) : Outcome :=
  match Arguments.parse args with
  | none => .usage
  | some a =>
    match a.inquiry with
    | some .help => { stdout := helpText }
    | some _ => { stdout := versionText }
    | none => compileFiles host files a

end LinearProgram.Command
