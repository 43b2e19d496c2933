import LinearProgram.Error

/-!
# Files as a command sees them

What a command needs to know of the files around it: what stands at a path, and whether a file can
be written there. `Files.ofTable` is a single folder of named files.
-/

namespace LinearProgram.Command

/-- What stands at a path. -/
inductive FileEntry where
  | missing
  | folder
  | file (content : String)
  deriving Repr

/-- The files around a command. -/
structure Files where
  entry : String → FileEntry
  /-- Why no file can be written at a path, if none can. -/
  obstacle? : String → Option Breakdown

/-- Text as it is read: each kind of line end becomes a line feed. -/
def unifyLines : List Char → List Char
  | '\r' :: '\n' :: rest => '\n' :: unifyLines rest
  | '\r' :: rest => '\n' :: unifyLines rest
  | c :: rest => c :: unifyLines rest
  | [] => []

namespace Files

def text? (files : Files) (path : String) : Option String :=
  match files.entry path with
  | .file content => some (String.ofList (unifyLines content.toList))
  | _ => none

/-- The steps of a path, without those that stay where they are. -/
def steps (path : String) : List String :=
  (path.splitOn "/").filter fun step => !step.isEmpty && step != "."

/-- Whether a path can only lead to a folder. -/
def endsInFolder (path : String) : Bool := path.endsWith "/" || path.endsWith "/."

/-- Whether some file lies below the folder with these steps. -/
def hasFolder (table : List (String × String)) (folder : List String) : Bool :=
  folder.isEmpty || table.any fun entry =>
    let parts := steps entry.1
    folder.length < parts.length && parts.take folder.length == folder

/-- A folder that holds the given files. -/
def ofTable (table : List (String × String)) : Files where
  entry path :=
    if path.isEmpty then .missing
    else
      let target := steps path
      match table.find? fun entry => steps entry.1 == target with
      | some (_, content) => if endsInFolder path then .missing else .file content
      | none => if hasFolder table target then .folder else .missing
  obstacle? path :=
    let target := steps path
    if !hasFolder table target.dropLast then some .noFile
    else if endsInFolder path || hasFolder table target then some .isFolder
    else none

end Files

end LinearProgram.Command
