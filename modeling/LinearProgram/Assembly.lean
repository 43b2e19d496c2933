import LinearProgram.Config
import LinearProgram.Log
import LinearProgram.Model.Basic

/-!
# Building a model step by step

Every change to a model goes through `Assembly`, which carries the model, the open transaction and
the log, and may fail. A failing step keeps the state it reached; the outermost `transaction` that
fails takes it back, by the records (`Undo`) that each change left. The log is not taken back.
-/

namespace LinearProgram

/-- How a change is taken back. -/
inductive Undo where
  | variable_ (v : Variable)
  | constraint (c : Constraint)
  | declaration (signature : Value)
  /-- The objective before the change. -/
  | objective (previous : Option Objective)

/-- An open transaction: its changes so far, newest first, and the counters at its start. -/
structure Transaction where
  undo : List Undo := []
  counters : List (String × Nat)

/-- A model with its transaction and log. -/
structure Store where
  model : Model := {}
  transaction : Option Transaction := none
  /-- Newest first. -/
  log : List LogRecord := []

instance : Inhabited Store := ⟨{}⟩

/-- A step that reads and changes a store, and may fail. -/
abbrev Assembly := ExceptT Error (StateM Store)

namespace Model

/-- Remove an index tuple from its family, and the family with its last tuple. -/
def removeIndex (family : String) (index : List Value) :
    List (String × List (List Value)) → List (String × List (List Value))
  | [] => []
  | entry :: rest =>
    if entry.1 == family then
      match entry.2.eraseP (fun tuple => Value.equalItems tuple index) with
      | [] => rest
      | tuples => (entry.1, tuples) :: rest
    else entry :: removeIndex family index rest

/-- Add an index tuple to its family, which is new if it had none. -/
def addIndex (family : String) (index : List Value) :
    List (String × List (List Value)) → List (String × List (List Value))
  | [] => [(family, [index])]
  | entry :: rest =>
    if entry.1 == family then (entry.1, entry.2 ++ [index]) :: rest
    else entry :: addIndex family index rest

def addVariable (m : Model) (v : Variable) : Model :=
  { m with
    columns := m.columns ++ [v]
    variableNames := m.variableNames ++ [(v.name, v.key)]
    families := addIndex v.key.family v.key.index m.families }

def removeVariable (m : Model) (v : Variable) : Model :=
  { m with
    columns := m.columns.eraseP fun other => other.key.equal v.key
    variableNames := m.variableNames.eraseP fun entry => entry.1 == v.name
    families := removeIndex v.key.family v.key.index m.families }

def addConstraint (m : Model) (c : Constraint) : Model :=
  { m with
    constraints := m.constraints ++ [c]
    constraintNames := m.constraintNames ++ [(c.name, c.rawName)] }

def removeConstraint (m : Model) (c : Constraint) : Model :=
  { m with
    constraints := m.constraints.eraseP fun other => other.name == c.name
    constraintNames := m.constraintNames.eraseP fun entry => entry.1 == c.name }

def addDeclaration (m : Model) (signature : Value) : Model :=
  { m with declarations := m.declarations ++ [signature] }

def removeDeclaration (m : Model) (signature : Value) : Model :=
  { m with declarations := m.declarations.eraseP signature.same }

/-- Set a counter; a new one goes last. -/
def setCounter (name : String) (value : Nat) : List (String × Nat) → List (String × Nat)
  | [] => [(name, value)]
  | entry :: rest =>
    if entry.1 == name then (entry.1, value) :: rest else entry :: setCounter name value rest

/-- Take one change back. -/
def revert (m : Model) : Undo → Model
  | .variable_ v => m.removeVariable v
  | .constraint c => m.removeConstraint c
  | .declaration signature => m.removeDeclaration signature
  | .objective previous => { m with objective := previous }

end Model

namespace Assembly

instance : MonadLift (Except Error) Assembly := ⟨fun result => ExceptT.mk (pure result)⟩

/-- Fail with a cause. -/
def refuse {α : Type} (cause : Cause) : Assembly α := liftM (raise cause : Except Error α)

def model : Assembly Model := do pure (← get).model

/-- Write to the log. -/
def report (records : List LogRecord) : Assembly Unit :=
  modify fun s => { s with log := records.reverse ++ s.log }

/-- Change the model and record how to take the change back. -/
def change (f : Model → Model) (undo : Undo) : Assembly Unit :=
  modify fun s =>
    { s with
      model := f s.model
      transaction := s.transaction.map fun t => { t with undo := undo :: t.undo } }

/-- Take back everything an open transaction did and close it. -/
def rollBack (s : Store) : Store :=
  match s.transaction with
  | none => s
  | some t =>
    { s with
      model := { t.undo.foldl Model.revert s.model with counters := t.counters }
      transaction := none }

/-- Run a step so that it happens as a whole or, if it fails, not at all. Inside another
transaction it is a part of that one. -/
def transaction {α : Type} (step : Assembly α) : Assembly α :=
  ExceptT.mk fun s =>
    match s.transaction with
    | some _ => step.run s
    | none =>
      match step.run { s with transaction := some { counters := s.model.counters } } with
      | (.ok a, after) => (.ok a, { after with transaction := none })
      | (.error e, after) => (.error e, rollBack after)

/-- Run a step and hand on its result, whether it fails or not. -/
def attempt {α : Type} (step : Assembly α) : Assembly (Except Error α) :=
  ExceptT.mk fun s =>
    let (result, after) := step.run s
    (.ok result, after)

/-- Run a step as a whole. If its result holds an error, what it did is taken back as in a failed
transaction, and the result is handed on. -/
def transactionUnless {α : Type} (error? : α → Option Error) (step : Assembly α) : Assembly α :=
  ExceptT.mk fun s =>
    match s.transaction with
    | some _ => step.run s
    | none =>
      match step.run { s with transaction := some { counters := s.model.counters } } with
      | (.ok a, after) =>
        (.ok a, if (error? a).isSome then rollBack after else { after with transaction := none })
      | (.error e, after) => (.error e, rollBack after)

/-- Count up, and give the new number. -/
def nextIndex (counter : String) : Assembly Nat := do
  let value := (← model).counter counter + 1
  modify fun s =>
    { s with
      model := { s.model with counters := Model.setCounter counter value s.model.counters } }
  pure value

end Assembly

end LinearProgram
