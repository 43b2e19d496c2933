import LinearProgram.Error

/-!
# Settings

By how much a big-M constant exceeds the tightest valid one, the longest name the LP format takes,
the word that starts the names of introduced families, and how an infinite bound is written.
-/

namespace LinearProgram

/-- The settings of a compilation. A word may be any value, which is then written as text. -/
structure Config where
  bigMSlack : Number := .float 1.0
  maxNameLength : Number := .int 255
  auxiliaryWord : Value := .str "aux"
  infinityWord : Value := .str "1e+30"
  deriving Inhabited

namespace Config

/-- The longest name, which must be a whole number to cut names with. -/
def nameLimit (config : Config) : Except Error Int := orUnsupported config.maxNameLength.toInt?

def infinityText (config : Config) : String := config.infinityWord.text

/-- Admit settings whose slack does not shrink constants and that leave room for names. -/
def checked (config : Config) : Except Error Config :=
  if config.bigMSlack.less (.float 1.0) then raise (.slack config.bigMSlack.text)
  else if config.maxNameLength.less (.int 1) then raise .nameLength
  else .ok config

/-- The names of the settings. -/
def names : List String := ["big_m_slack", "max_name_length", "auxiliary_prefix", "infinity_text"]

/-- The number given under a name, or a default. -/
def numberOr (entries : Entries) (name : String) (default : Number) : Except Error Number :=
  match entries.named? name with
  | none => .ok default
  | some value => orUnsupported value.normalize.number?

/-- The settings given by a table; the others keep their defaults. Every name must be that of a
setting. The slack is looked at first. -/
def ofEntries (entries : Entries) : Except Error Config := do
  if !entries.all fun entry => entry.1.str?.any names.contains then breakDown .unsupported
  let default : Config := {}
  let slack ← numberOr entries "big_m_slack" default.bigMSlack
  let config ← checked { default with bigMSlack := slack }
  let length ← numberOr entries "max_name_length" default.maxNameLength
  checked { config with
    maxNameLength := length
    auxiliaryWord := (entries.named? "auxiliary_prefix").getD default.auxiliaryWord
    infinityWord := (entries.named? "infinity_text").getD default.infinityWord }

/-- The settings under their names. -/
def entries (config : Config) : Entries :=
  [(.str "big_m_slack", .number config.bigMSlack),
   (.str "max_name_length", .number config.maxNameLength),
   (.str "auxiliary_prefix", config.auxiliaryWord),
   (.str "infinity_text", config.infinityWord)]

end Config

end LinearProgram
