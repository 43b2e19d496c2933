import LinearProgram.Proofs.Journal

/-!
# Exact rollback

A transaction that fails leaves the model it found, in every field and in order
(`model_of_transaction_error`), whatever operations a caller runs inside it, nested and caught
failures included (`Operation`).
-/

namespace LinearProgram

variable {cfg : Config} {s : Store}

/-- What can be asked of a model under construction, one call after the other. -/
inductive Operation where
  | declareVariable (family : Value) (index : List Value) (kind lower upper desc : Value)
      (auxiliary : Bool)
  | declareVariables (family : Value) (indices : List (Except Error (List Value)))
      (kind lower upper desc : Value)
  | declareConstraint (name : Value) (lhs : Polynomial) (op : Value) (rhs : Polynomial)
      (desc : Value)
  | registerDeclaration (signature : Value) (label : String)
  | setObjective (objective : Objective) (replace : Bool)
  | nextIndex (counter : String)
  /-- A failure that comes from outside, between two calls. -/
  | fail (e : Error)
  /-- A transaction of its own. -/
  | block (operations : List Operation)
  /-- Operations whose failure is caught, so that the calls after them go on. -/
  | caught (operations : List Operation)

namespace Operation

mutual

def run (cfg : Config) : Operation → Assembly Unit
  | declareVariable family index kind lower upper desc auxiliary => do
    let _ ← Assembly.declareVariable cfg family index kind lower upper desc auxiliary
  | declareVariables family indices kind lower upper desc => do
    let _ ← Assembly.declareVariables cfg family indices kind lower upper desc
  | declareConstraint name lhs op rhs desc => do
    let rel ← Assembly.relationOf op
    let _ ← Assembly.addConstraint cfg name lhs rel rhs desc
  | registerDeclaration signature label => Assembly.registerDeclaration signature label
  | setObjective objective replace => do
    let _ ← Assembly.setObjective objective replace
  | nextIndex counter => do
    let _ ← Assembly.nextIndex counter
  | fail e => throw e
  | block operations => Assembly.transaction (runAll cfg operations)
  | caught operations => do
    let _ ← Assembly.attempt (runAll cfg operations)

/-- Carry out operations in order, up to the first failure. -/
def runAll (cfg : Config) : List Operation → Assembly Unit
  | [] => pure ()
  | operation :: rest => do
    run cfg operation
    runAll cfg rest

end

mutual

/-- The bounds that an operation and the ones inside it give to variables. -/
def bounds : Operation → List (Value × Value)
  | declareVariable _ _ _ lower upper _ _ | declareVariables _ _ _ lower upper _ => [(lower, upper)]
  | block operations | caught operations => boundsAll operations
  | declareConstraint .. | registerDeclaration .. | setObjective .. | nextIndex _ | fail _ => []

def boundsAll : List Operation → List (Value × Value)
  | [] => []
  | operation :: rest => operation.bounds ++ boundsAll rest

end

section Keeps

variable {cfg : Config} {allowed : Variable → Prop} {I : Model → Prop}

/-- The variables that can come of two given bounds are allowed. -/
def Passes (allowed : Variable → Prop) (given : Value × Value) : Prop :=
  ∀ v : Variable, Bound.ofValue given.1 = .ok v.lower →
    Bound.ofValue given.2 = .ok v.upper →
    Bound.check v.key.text v.kind v.lower v.upper = .ok () → allowed v

mutual

theorem keeps_run (invariant : Invariant cfg allowed I) (operation : Operation)
    (passes : ∀ given ∈ operation.bounds, Passes allowed given) :
    Keeps I (operation.run cfg) := by
  match operation with
  | declareVariable .. =>
    have passes := passes _ (List.mem_singleton.mpr rfl)
    exact .of_composed invariant ((Composed.declareVariable passes).bind fun _ => .pure _)
  | declareVariables .. =>
    have passes := passes _ (List.mem_singleton.mpr rfl)
    refine .of_composed invariant (.bind (.transaction (.mapM (fun _ => ?_) _)) fun _ => .pure _)
    exact Composed.compute.bind fun _ => .declareVariable passes
  | declareConstraint .. =>
    exact Keeps.lift.bind fun _ => (Keeps.addConstraint invariant).bind fun _ => Keeps.pure
  | registerDeclaration .. => exact Keeps.registerDeclaration invariant
  | setObjective .. => exact (Keeps.setObjective invariant).bind fun _ => Keeps.pure
  | nextIndex _ => exact (Keeps.nextIndex invariant).bind fun _ => Keeps.pure
  | fail _ => exact Keeps.throw
  | block operations => exact (keeps_runAll invariant operations passes).transaction
  | caught operations =>
    exact (keeps_runAll invariant operations passes).attempt.bind fun _ => Keeps.pure

theorem keeps_runAll (invariant : Invariant cfg allowed I) (operations : List Operation)
    (passes : ∀ given ∈ boundsAll operations, Passes allowed given) :
    Keeps I (runAll cfg operations) := by
  match operations with
  | [] => exact Keeps.pure
  | operation :: rest =>
    simp only [boundsAll, List.mem_append] at passes
    refine (keeps_run invariant operation fun given at_head => ?_).bind fun _ =>
      keeps_runAll invariant rest fun given at_tail => ?_
    · exact passes given (.inl at_head)
    · exact passes given (.inr at_tail)

end

theorem journaled_runAll (cfg : Config) (operations : List Operation) :
    Keeps (fun _ => True) (runAll cfg operations) :=
  keeps_runAll (invariant_true cfg fun _ => True) operations fun _ _ _ _ _ _ => trivial

end Keeps

end Operation

/-- The stores that operations, statements and compilations lead to from an empty model. -/
inductive Reachable (cfg : Config) : Store → Prop
  | empty (name : Value) : Reachable cfg { model := { name } }
  | operation {s : Store} (known : Reachable cfg s) (operation : Operation) :
      Reachable cfg ((operation.run cfg).run s).2
  | statement {s : Store} (known : Reachable cfg s) (params : Parameters) (replace : Bool)
      (stmt : Statement) :
      Reachable cfg ((Compilation.applyStatement cfg params replace stmt).run s).2
  | expression {s : Store} (known : Reachable cfg s) (e : Expr) (ctx : Context) :
      Reachable cfg ((Compilation.compile cfg e ctx).run s).2

namespace Reachable

/-- What every single change keeps holds of every reachable model. These are coherent, and between
operations no transaction is open. -/
theorem keeps {I : Model → Prop} (invariant : Invariant cfg (fun _ => True) I)
    (start : ∀ name, I { name }) {s : Store} (reachable : Reachable cfg s) :
    s.model.Coherent ∧ s.transaction = none ∧ I s.model := by
  have step : ∀ {α : Type} {x : Assembly α} {s : Store}, Keeps I x →
      s.model.Coherent ∧ s.transaction = none ∧ I s.model →
      (x.run s).2.model.Coherent ∧ (x.run s).2.transaction = none ∧ I (x.run s).2.model := by
    rintro α x s keeps ⟨coherent, closed, holds⟩
    have recorded := keeps s coherent
    exact ⟨recorded.coherent, recorded.closed closed, recorded.kept holds⟩
  induction reachable with
  | empty name => exact ⟨⟨by simp, by simp, by simp⟩, rfl, start name⟩
  | operation _ operation ih =>
    exact step (operation.keeps_run invariant fun _ _ _ _ _ _ => trivial) ih
  | statement _ _ _ _ ih =>
    exact step (.of_composed invariant .applyStatement) ih
  | expression _ _ _ ih => exact step (.of_composed invariant .compile_operating) ih

theorem coherent_closed (reachable : Reachable cfg s) :
    s.model.Coherent ∧ s.transaction = none := by
  obtain ⟨coherent, closed, -⟩ := reachable.keeps (invariant_true cfg _) fun _ => trivial
  exact ⟨coherent, closed⟩

end Reachable

/-- An outermost transaction that fails leaves the model as it was. -/
theorem model_of_transaction_error {α : Type} {x : Assembly α} {s' : Store} {e : Error}
    {I : Model → Prop} (keeps : Keeps I x) (coherent : s.model.Coherent)
    (closed : s.transaction = none) (failed : (Assembly.transaction x).run s = (.error e, s')) :
    s'.model = s.model ∧ s'.transaction = none := by
  have inner := keeps s.begun coherent
  rcases ran : x.run s.begun with ⟨e' | a, after⟩
  · rw [ran] at inner
    rw [Assembly.run_transaction_rollBack closed ran] at failed
    cases failed
    exact inner.rollBack_model
  · rw [Assembly.run_transaction_commit closed ran] at failed
    cases failed

/-- A statement that fails leaves the model as it was. -/
theorem model_of_statement_error {params : Parameters} {replace : Bool} {stmt : Statement}
    {s' : Store} {e : Error} (coherent : s.model.Coherent) (closed : s.transaction = none)
    (failed : (Compilation.applyStatement cfg params replace stmt).run s
      = (.error e, s')) : s'.model = s.model ∧ s'.transaction = none := by
  obtain ⟨β, body, finish, shape, composed, -, finishes⟩ :=
    Composed.applyStatement_eq cfg params replace stmt
  rw [shape, Assembly.run_bind] at failed
  rcases ran : (Assembly.transaction body).run s with ⟨e' | b, after⟩
  · rw [ran] at failed
    cases failed
    have keeps := Keeps.of_composed (invariant_true cfg _) composed
    exact model_of_transaction_error keeps coherent closed ran
  · -- what follows the transaction cannot fail
    rw [ran] at failed
    obtain ⟨added, log, done⟩ := finishes b after
    have same := failed.symm.trans done
    cases same

/-- **Exact rollback.** Whatever operations run inside an outermost transaction of a reachable
model, replaying its records newest first and restoring its counters gives the model at its start.
Hence a transaction that fails, and a statement that fails, leave the model as it was. -/
theorem failed_transaction_restores_model {cfg : Config} {s : Store}
    (reachable : Reachable cfg s) :
    (∀ operations : List Operation, ∃ t,
      let after := ((Operation.runAll cfg operations).run
        { s with transaction := some { counters := s.model.counters } }).2
      after.transaction = some t ∧ t.counters = s.model.counters
        ∧ { t.undo.foldl Model.revert after.model with counters := t.counters } = s.model)
      ∧ (∀ (operations : List Operation) (e : Error) (s' : Store),
        (Assembly.transaction (Operation.runAll cfg operations)).run s = (.error e, s') →
          s'.model = s.model ∧ s'.transaction = none)
      ∧ ∀ (params : Parameters) (replace : Bool) (stmt : Statement) (e : Error) (s' : Store),
        (Compilation.applyStatement cfg params replace stmt).run s = (.error e, s') →
          s'.model = s.model ∧ s'.transaction = none := by
  obtain ⟨coherent, closed⟩ := reachable.coherent_closed
  refine ⟨?_, ?_, ?_⟩
  · intro operations
    obtain ⟨new, opened, replayed⟩ := (Operation.journaled_runAll cfg operations
      { s with transaction := some { counters := s.model.counters } } coherent).opened _ rfl
    rw [List.append_nil] at opened
    exact ⟨_, opened, rfl, replayed s.model.counters⟩
  · intro operations e s' failed
    exact model_of_transaction_error (Operation.journaled_runAll cfg operations) coherent closed
      failed
  · intro params replace stmt e s' failed
    exact model_of_statement_error coherent closed failed

def oneVariable : Store :=
  ((Operation.run {} (.declareVariable (.str "x") [.int 1] (.str "binary") .none .none .none
    false)).run {}).2

/-- A block that declares a variable, a row over it and an objective, and then fails. -/
def halfwayBlock : List Operation :=
  let x : Polynomial := Polynomial.ofKey ⟨"x", [.int 2]⟩
  [.nextIndex "constraint",
    .block [.declareVariable (.str "x") [.int 2] (.str "binary") .none .none .none false],
    .declareConstraint .none x (.str "<=") (Polynomial.const (.int 7)) .none,
    .setObjective ⟨x, .minimize⟩ false,
    .caught [.setObjective ⟨x, .maximize⟩ false],
    .registerDeclaration (.tuple [.str "row"]) "row",
    .fail (.broken .unsupported)]

theorem halfwayBlock_restores_model :
    oneVariable.model.columns.length = 1
      ∧ ∃ e after, (Assembly.transaction (Operation.runAll {} halfwayBlock)).run oneVariable
          = (.error e, after) ∧ after.model = oneVariable.model ∧ after.transaction = none := by
  have known : Reachable {} oneVariable := (Reachable.empty .none).operation _
  have failed : ((Assembly.transaction (Operation.runAll {} halfwayBlock)).run
      oneVariable).1.toBool = false := by decide +kernel
  refine ⟨by decide +kernel, ?_⟩
  rcases ran : (Assembly.transaction (Operation.runAll {} halfwayBlock)).run oneVariable with
    ⟨e | a, after⟩
  · exact ⟨e, after, rfl, (failed_transaction_restores_model known).2.1 halfwayBlock e after ran⟩
  · rw [ran] at failed
    cases failed

end LinearProgram
