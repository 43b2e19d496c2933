/-!
# Log records

What a compilation reports besides its result. Records are kept as data; the command line decides
which of them it shows.
-/

namespace LinearProgram

inductive LogLevel where
  | debug | info | warning
  deriving Repr, DecidableEq, Inhabited

def LogLevel.word : LogLevel → String
  | debug => "DEBUG"
  | info => "INFO"
  | warning => "WARNING"

inductive LogSource where
  | model | compiler
  deriving Repr, DecidableEq, Inhabited

def LogSource.word : LogSource → String
  | model => "lp_compile.model"
  | compiler => "lp_compile.compiler"

/-- One line of the log. -/
structure LogRecord where
  level : LogLevel
  source : LogSource
  message : String
  deriving Repr, DecidableEq, Inhabited

def LogRecord.text (r : LogRecord) : String :=
  r.level.word ++ " " ++ r.source.word ++ ": " ++ r.message

end LinearProgram
