import LinearProgram.Command.Basic
import LinearProgram.Numeric.Host

/-!
# The program

Collects what the command needs to know of the file system, runs it, and carries out what it asks
for.
-/

namespace LinearProgram.Command

def entryAt (path : String) : IO FileEntry := do
  try pure (.file (← IO.FS.readFile path))
  catch _ =>
    try
      let _ ← IO.FS.realPath path
      pure .folder
    catch _ => pure .missing

def parentOf (path : String) : String :=
  match (path.splitOn "/").dropLast with
  | [] => "."
  | [""] => "/"
  | parts => "/".intercalate parts

/-- Why no file can be written at a path, if none can. -/
def obstacleAt (path : String) : IO (Option Breakdown) := do
  match ← entryAt path, ← entryAt (parentOf path) with
  | .folder, _ => pure (some .isFolder)
  | _, .folder => pure (if path.endsWith "/" then some .isFolder else none)
  | _, _ => pure (some .noFile)

/-- Look at the files that arguments may mean. -/
def survey (args : List String) : IO Files := do
  let (read, written) := match Arguments.parse args with
    | some a => (a.positional ++ a.params.toList, a.output.toList)
    | none => ([], [])
  let entries ← read.mapM fun path => do pure (path, ← entryAt path)
  let obstacles ← written.mapM fun path => do pure (path, ← obstacleAt path)
  pure
    { entry := fun path => (entries.lookup path).getD .missing
      obstacle? := fun path => (obstacles.lookup path).getD (some .noFile) }

/-- Write what a command has to write. -/
def Outcome.perform (outcome : Outcome) : IO UInt32 := do
  match outcome.written with
  | some (path, text) => IO.FS.writeFile path text
  | none => pure ()
  IO.print outcome.stdout
  IO.eprint outcome.stderr
  match outcome.failure with
  | some e => IO.eprintln (e.message?.getD "The input holds values that do not fit together")
  | none => pure ()
  pure outcome.exitCode.toUInt32

end LinearProgram.Command

def main (args : List String) : IO UInt32 := do
  (LinearProgram.Command.run .numeric (← LinearProgram.Command.survey args) args).perform
