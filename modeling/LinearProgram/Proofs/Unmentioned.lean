import LinearProgram.Proofs.Weights

/-!
# Parameters that are not mentioned

A tree reads parameters through its bare names only, so a statement is carried out alike under
tables that agree on these (`Compilation.applyStatement_under`). Descriptions without a placeholder
do not read the tables.
-/

namespace LinearProgram

open List

variable {e : Expr} {c c' : Context} {names : List String}

theorem Expr.evaluate_agrees (agrees : Context.Agrees true e.symbols c c') :
    e.evaluate c = e.evaluate c' := by
  simpa only [seen_true] using (e.evaluatesByNames c c' agrees).value

theorem Compilation.compile_agrees {cfg : Config} (agrees : Context.Agrees true e.symbols c c') :
    compile cfg e c = compile cfg e c' := by
  have same := (compile_alike cfg e.weight).steps (Nat.le_refl _) agrees
  rwa [Assembly.seen_true, Assembly.seen_true] at same

/-- A step for each binding, if it does the same under contexts that agree on some names. -/
theorem Assembly.foldListing_agrees {σ : Type} {items : List GeneratorItem}
    {step : σ → Context → Assembly σ} {start : σ}
    (within : ∀ item ∈ items, ∀ e ∈ item.children, ∀ symbol ∈ e.symbols, symbol ∈ names)
    (same : ∀ b d d', Context.Agrees true names d d' → step b d = step b d')
    (agrees : Context.Agrees true names c c') :
    foldListing (bindings items c) step start = foldListing (bindings items c') step start := by
  have listed := bindings_alike (fun item known e mem =>
    ⟨e.evaluatesByNames, within item known e mem⟩) agrees
  have folded := listed.foldListing (fun b d d' agree => congrArg (seen true) (same b d d' agree))
    start
  rwa [seen_true, seen_true] at folded

/-! ## Statements -/

namespace Statement

/-- The bare names of a statement. -/
def symbols (stmt : Statement) : List String := stmt.trees.flatMap Expr.symbols

def description : Statement → Value
  | variableFamily _ _ _ _ _ desc => desc
  | constraintFamily _ _ _ _ desc => desc
  | objective _ _ => .none

end Statement

/-- A description without an opening brace. -/
def Value.Plain (desc : Value) : Prop := ∀ s, desc = .str s → '\x7b' ∉ s.toList

namespace Compilation

open Assembly

variable {cfg : Config} {p q : Scope} {desc : Value} {gens : List GeneratorItem}

theorem mentionsBrace_plain {s : String} (plain : Value.Plain (.str s)) :
    mentionsBrace (.str s) = .ok false := by
  simp [mentionsBrace, plain s rfl]

/-- Only text is filled, and only at its placeholders. -/
theorem describe_agrees (plain : desc.Plain) :
    describe desc c = describe desc c' := by
  cases desc with
  | str => simp only [describe, mentionsBrace_plain plain]; rfl
  | _ => rfl

theorem indexValues_agrees (bound : c.bindings = c'.bindings) :
    indexValues gens c = indexValues gens c' := by
  simp only [indexValues, bound]

theorem constraintLabel_agrees (plain : desc.Plain) (bound : c.bindings = c'.bindings) :
    constraintLabel desc gens c = constraintLabel desc gens c' := by
  cases desc with
  | str =>
    simp only [constraintLabel, mentionsBrace_plain plain, indexValues_agrees bound]
    rfl
  | none => rfl
  | _ =>
    simp only [constraintLabel, indexValues_agrees bound]
    rfl

theorem boundValue_agrees {datum : Datum}
    (each : ∀ e ∈ datum.trees, Context.Agrees true e.symbols c c') :
    boundValue c datum = boundValue c' datum := by
  cases datum with
  | data => rfl
  | tree e => simp only [boundValue, Expr.evaluate_agrees (each e mem_cons_self)]

theorem addConstraintInstance_agrees {op : Comparison} {left right : Expr}
    (plain : desc.Plain) (agreesLeft : Context.Agrees true left.symbols c c')
    (agreesRight : Context.Agrees true right.symbols c c') :
    addConstraintInstance cfg op left right gens desc c
      = addConstraintInstance cfg op left right gens desc c' := by
  simp only [addConstraintInstance, compile_agrees agreesLeft, compile_agrees agreesRight,
    constraintLabel_agrees plain (agreesLeft.bound rfl), indexValues_agrees (agreesLeft.bound rfl)]

/-- A statement is carried out by the same steps under tables that agree on its bare names. -/
theorem applyStatement_under {replace : Bool} {stmt : Statement}
    (plain : stmt.description.Plain) (alike : Scope.AlikeOn stmt.symbols p q) :
    applyStatement cfg { table := p, host } replace stmt
      = applyStatement cfg { table := q, host } replace stmt := by
  have agrees : Context.Agrees true stmt.symbols { parameters := { table := p, host } }
      { parameters := { table := q, host } } := ⟨⟨fun _ _ => rfl, alike, rfl⟩, fun _ => rfl⟩
  have within : ∀ e ∈ stmt.trees, ∀ name ∈ e.symbols, name ∈ stmt.symbols :=
    fun e mem name inside => mem_flatMap.mpr ⟨e, mem, inside⟩
  simp only [Statement.trees, forall_mem_append, forall_mem_flatMap] at within
  obtain ⟨inner, stated⟩ := within
  cases stmt with
  | variableFamily _ _ _ lower upper desc =>
    dsimp only [Statement.generators, Statement.description] at inner plain
    rw [applyStatement, applyStatement, addVariables, addVariables,
      foldListing_agrees inner (fun done d d' agree => ?_) agrees]
    have low := boundValue_agrees fun e mem =>
      agree.mono (stated lower (by simp [Statement.data]) e mem)
    have high := boundValue_agrees fun e mem =>
      agree.mono (stated upper (by simp [Statement.data]) e mem)
    have described : describe desc d = describe desc d' := describe_agrees plain
    rw [low, high, described, indexValues_agrees (agree.bound rfl)]
  | constraintFamily _ left right =>
    dsimp only [Statement.generators, Statement.description] at inner plain
    rw [applyStatement, applyStatement, addConstraints, addConstraints,
      foldListing_agrees inner (fun done d d' agree => ?_) agrees]
    rw [declareNext, declareNext, addConstraintInstance_agrees plain
      (agree.mono (stated (.tree left) (by simp [Statement.data]) left mem_cons_self))
      (agree.mono (stated (.tree right) (by simp [Statement.data]) right mem_cons_self))]
  | objective expr =>
    have tree := agrees.mono (stated (.tree expr) mem_cons_self expr mem_cons_self)
    simp only [applyStatement, setObjective, compile_agrees tree]

/-- **A parameter that no statement mentions has no influence.** Statements whose descriptions have
no opening brace give the same outcome under any two parameter tables that agree on their bare
names: the same result, error text included, and the same store. -/
theorem define_ignores_unmentioned (cfg : Config) (host : Host) (name : Value)
    (statements : List Statement) (p q : Scope)
    (plain : ∀ stmt ∈ statements, stmt.description.Plain)
    (alike : ∀ stmt ∈ statements, Scope.AlikeOn stmt.symbols p q) :
    define cfg { table := p, host } name statements
      = define cfg { table := q, host } name statements := by
  have steps : applyStatements cfg { table := p, host } false statements
      = applyStatements cfg { table := q, host } false statements :=
    forM_congr_of_mem fun stmt member => by
      simp only [applyStatement_under (plain stmt member) (alike stmt member)]
  simp only [define, steps]

/-- The output of each plant, at most its capacity, and all of it together at least the demand. -/
def plants : List Statement :=
  [.variableFamily (.str "output") [.generator "i" (.tree (.symbol "sites"))] (.str "integer")
      (.data (.int 0)) (.tree (.lookup (.symbol "capacity") (.symbol "i") false)) (.str "per day"),
    .constraintFamily .ge (.sum [.ref (.str "output") [.wildcard]]) (.symbol "demand") []
      (.str "sales")]

def plantTable : Scope :=
  [("sites", .list [.str "north", .str "south"]),
    ("capacity", .table [(.str "north", .int 4), (.str "south", .int 7)]), ("demand", .int 9)]

/-- A table for the plants with a word that none of them mentions, ahead of all that they do. -/
def notedTable : Scope := ("note", .str "draft") :: plantTable

theorem plants_alike :
    ∀ stmt ∈ plants, Scope.AlikeOn stmt.symbols plantTable notedTable := by
  intro stmt mem name inside
  have mentioned : plants.flatMap Statement.symbols = ["sites", "capacity", "i", "demand"] := by
    decide +kernel
  have known := mem_flatMap.mpr ⟨stmt, mem, inside⟩
  rw [mentioned] at known
  simp only [mem_cons, not_mem_nil, or_false] at known
  rcases known with rfl | rfl | rfl | rfl <;> rfl

theorem plants_plain : ∀ stmt ∈ plants, stmt.description.Plain := by
  simp [plants, Statement.description, Value.Plain]

/-- The table with a note and the one without differ, yet give the plants the same model. -/
theorem plants_ignore_note :
    plantTable.get? "note" = none ∧ notedTable.get? "note" = some (.str "draft")
      ∧ (∀ stmt ∈ plants, stmt.description.Plain)
      ∧ (∀ stmt ∈ plants, Scope.AlikeOn stmt.symbols plantTable notedTable)
      ∧ define {} { table := plantTable } (.str "plan") plants
        = define {} { table := notedTable } (.str "plan") plants :=
  ⟨rfl, rfl, plants_plain, plants_alike,
    define_ignores_unmentioned {} .bare (.str "plan") plants plantTable notedTable plants_plain
      plants_alike⟩

end Compilation

end LinearProgram
