import LinearProgram.Proofs.References

/-!
# Auxiliary variables are fresh

At the stores at which expressions are compiled (`Underway`) the counters have got past every
auxiliary name, so a declaration never finds its name taken (`compile_fresh`), unless users' names
begin like the generated ones (`Model.Tidy`) or names are too long (`Model.Short`).
-/

namespace LinearProgram.Compilation

variable {cfg : Config} {s s' : Store}

/-- The stores that statements pass through when they compile expressions. -/
inductive Underway (cfg : Config) : Store → Prop
  | opened {s : Store} (session : Session cfg s) :
      Underway cfg s.begun
  | bound {s s' : Store} (before : Underway cfg s) {op : Comparison} {left right : Expr}
      {gens : List GeneratorItem} {desc : Value} {ctx : Context}
      {r : Option Constraint}
      (ran : (addConstraintInstance cfg op left right gens desc ctx).run s
        = (.ok r, s')) : Underway cfg s'
  | registered {s s' : Store} (before : Underway cfg s) {signature : Value} {label : String}
      {u : Unit} (ran : (Assembly.registerDeclaration signature label).run s = (.ok u, s')) :
      Underway cfg s'
  | compiled {s s' : Store} (before : Underway cfg s) {e : Expr} {ctx : Context}
      {p : Polynomial} (ran : (compile cfg e ctx).run s = (.ok p, s')) : Underway cfg s'

theorem Underway.ready (underway : Underway cfg s) : s.model.Ready cfg := by
  induction underway with
  | opened session => exact session.sound.1
  | bound _ ran ih => exact (registers_addConstraintInstance ih ran).follows.ready
  | registered _ ran ih => exact (follows_registerDeclaration ih ran).ready
  | compiled _ ran ih => exact (follows_compile ih ran).1.ready

/-- **Auxiliaries are fresh, and compilation is a conservative extension.** Wherever a statement
compiles an expression, nothing that the operators declare is there already, as long as users' names
and the lengths of names leave room. A compilation that succeeds adds auxiliary variables and rows
at the end, one group for each use of an operator, and each row mentions a variable of its group. -/
theorem compile_fresh (underway : Underway {} s) {e : Expr} {ctx : Context}
    {result : Except Error Polynomial} (ran : (compile {} e ctx).run s = (result, s')) :
    (∀ cause, result = .error (.refused cause) → s'.model.Tidy → s'.model.Short →
      (∀ name, cause.clash? = some name → name.length ≤ 255) →
      cause.kind ≠ .redefinition ∧ cause.kind ≠ .duplicateName)
    ∧ ∀ p, result = .ok p →
      (∀ family, s.model.indexTuples family <+: s'.model.indexTuples family)
        ∧ ∃ expansions : List Expansion,
          s.model.Adds (expansions.flatMap (·.columns)) (expansions.flatMap (·.rows)) s'.model
            ∧ ∀ x ∈ expansions, x.Proper {} s'.model := by
  have grows := compile_grows underway.ready e ctx
  refine ⟨?_, ?_⟩
  · rintro cause rfl tidy short fits
    unfold Extending Grows at grows
    rw [ran] at grows
    have free : ¬ cause.clash?.isSome = true := by
      intro clash
      obtain ⟨name, isName⟩ := Option.isSome_iff_exists.mp clash
      have long := grows rfl tidy short name isName
      exact absurd (fits name isName) (Nat.not_le_of_lt long)
    rw [Cause.clash?_isSome_iff] at free
    exact not_or.mp free
  · rintro p rfl
    have grown := grows.ok ran
    obtain ⟨expansions, adds, proper⟩ := grown.conservative
    exact ⟨adds.indexTuples underway.ready.registered grown.ready.registered, expansions, adds,
      proper⟩

def stockStore : Store :=
  let stock : Statement := .variableFamily (.str "stock") [] (.str "integer") (.data (.int (-3)))
    (.data (.int 3)) .none
  let s : Store := ((applyStatement {} {} true stock).run { model := { name := .none } }).2
  { s with transaction := some { counters := s.model.counters } }

def deviation : Expr := .abs (.ref (.str "stock") [])

theorem deviation_fresh : ∃ p s', (compile {} deviation {}).run stockStore = (.ok p, s')
    ∧ s'.model.columns.map (·.name) = ["stock", "aux_abs(1)"]
    ∧ ∃ expansions : List Expansion,
      stockStore.model.Adds (expansions.flatMap (·.columns)) (expansions.flatMap (·.rows)) s'.model
        ∧ ∀ x ∈ expansions, x.Proper {} s'.model := by
  have underway : Underway {} stockStore := .opened ((Session.start .none).statement _ _ _)
  obtain ⟨p, ran⟩ := Assembly.exists_run_ok (x := compile {} deviation {}) (s := stockStore)
    (by decide +kernel)
  exact ⟨p, _, ran, by decide +kernel, ((compile_fresh underway ran).2 p rfl).2⟩

end LinearProgram.Compilation
