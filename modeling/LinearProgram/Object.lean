import LinearProgram.Value.Basic

/-!
# Data with identity

Tables and lists that are changed in place have an identity: `Object` gives each of them a number,
and two with the same number are one and the same, wherever they are held. `Object.label` numbers
data of which nothing is held twice.
-/

namespace LinearProgram

/-- Whether a value is neither a table nor a list. -/
def Value.isAtom : Value → Bool
  | .table _ | .list _ => false
  | _ => true

/-- Data whose tables and lists are numbered. -/
inductive Object where
  /-- Anything that is not changed in place. -/
  | plain (v : Value) (atom : v.isAtom = true)
  /-- A table, or a list, whose parts have no keys to be found by. -/
  | node (id : Nat) (isTable : Bool) (parts : List (Value × Object))

namespace Object

mutual

/-- The data without the numbers. -/
def content : Object → Value
  | plain v _ => v
  | node _ true parts => .table (contents parts)
  | node _ false parts => .list ((contents parts).map Prod.snd)

/-- The parts without the numbers. -/
def contents : List (Value × Object) → Entries
  | [] => []
  | (key, x) :: rest => (key, content x) :: contents rest

end

mutual

/-- The numbers of the tables and lists, each as often as it is held. -/
def labels : Object → List Nat
  | plain _ _ => []
  | node id _ parts => id :: labelsAll parts

/-- The numbers in some parts. -/
def labelsAll : List (Value × Object) → List Nat
  | [] => []
  | (_, x) :: rest => labels x ++ labelsAll rest

end

mutual

/-- Put something else in the place of the table or list with a number, wherever it is held. -/
def replace (id : Nat) (new : Object) : Object → Object
  | plain v atom => plain v atom
  | node k isTable parts =>
    if k = id then new else node k isTable (replaceAll id new parts)

/-- Replace in some parts. -/
def replaceAll (id : Nat) (new : Object) : List (Value × Object) → List (Value × Object)
  | [] => []
  | (key, x) :: rest => (key, replace id new x) :: replaceAll id new rest

end

mutual

/-- Number the tables and lists of a value from `n` on; also the first number that is left. -/
def label (n : Nat) : Value → Object × Nat
  | .table entries =>
    let (parts, next) := labelEntries (n + 1) entries
    (node n true parts, next)
  | .list items =>
    let (parts, next) := labelItems (n + 1) items
    (node n false parts, next)
  | .none => (plain .none rfl, n)
  | .number x => (plain (.number x) rfl, n)
  | .str s => (plain (.str s) rfl, n)
  | .tuple items => (plain (.tuple items) rfl, n)
  | .range start stop step => (plain (.range start stop step) rfl, n)
  | .set items => (plain (.set items) rfl, n)
  | .foreign view core listed => (plain (.foreign view core listed) rfl, n)
  | .cell x => (plain (.cell x) rfl, n)
  | .record r => (plain (.record r) rfl, n)

/-- Number the entries of a table. -/
def labelEntries (n : Nat) : List (Value × Value) → List (Value × Object) × Nat
  | [] => ([], n)
  | (key, v) :: rest =>
    let (x, next) := label n v
    let (others, next) := labelEntries next rest
    ((key, x) :: others, next)

/-- Number the items of a list. -/
def labelItems (n : Nat) : List Value → List (Value × Object) × Nat
  | [] => ([], n)
  | v :: rest =>
    let (x, next) := label n v
    let (others, next) := labelItems next rest
    ((.none, x) :: others, next)

end

/-- Put something in the place of a part, which keeps its key, or behind all of them. -/
def setAt (key : Value) (new : Object) : Nat → List (Value × Object) → List (Value × Object)
  | _, [] => [(key, new)]
  | 0, (k, _) :: rest => (k, new) :: rest
  | n + 1, part :: rest => part :: setAt key new n rest

/-- Data of which nothing is held twice. -/
def ofValue (v : Value) : Object := (label 0 v).1

/-- A number above those in use. -/
def free (x : Object) : Nat := x.labels.foldr (fun id n => max (id + 1) n) 0

/-- A list repeated: each of its items is held several times. -/
def repeated (n : Nat) : Object → Object
  | node id false parts => node id false (List.replicate n parts).flatten
  | x => x

end Object

end LinearProgram
