import LinearProgram.Proofs.References
import LinearProgram.Proofs.RepeatFree
import LinearProgram.Proofs.WrittenTrees

/-!
# Repeated constraints

A model remembers constraint statements by the written form of the comparison and of the values that
the generators bind (`History.declarations`). For legible trees, and whole numbers or texts as index
values, being written alike is being equal. In general it is not: a variable and a parameter of one
name are written alike.
-/

namespace LinearProgram

open List Assembly Compilation

variable {declared : List Occurrence} {families : List String}

/-! ## Occurrences -/

namespace Occurrence

/-- Two occurrences have the same written form. -/
def Alike (i j : Occurrence) : Prop :=
  ∃ shown, i.tree.text? = some shown ∧ j.tree.text? = some shown
    ∧ Value.tupleQuoted i.index = Value.tupleQuoted j.index

/-- Two occurrences are equal: the same nodes, and equal data and index values. -/
def equal (i j : Occurrence) : Bool := i.tree.equal j.tree && Value.equalItems i.index j.index

/-- Legible trees, and whole numbers or texts as index values. -/
def isLegible (families : List String) (i : Occurrence) : Bool :=
  i.tree.isLegible families && i.index.all Written.isWord

/-- What messages call an occurrence. -/
def label (i : Occurrence) (shown : String) : String :=
  if i.index.isEmpty then shown else shown ++ " for " ++ Value.tupleQuoted i.index

/-- Put an occurrence on record, or refuse it. -/
def register (i : Occurrence) : Assembly Unit := do
  let shown ← orUnsupported i.tree.text?
  registerDeclaration (.tuple [.str shown, .str (Value.tupleQuoted i.index)]) (i.label shown)

/-- Being written alike is being equal, where trees and index values are legible. -/
theorem alike_iff {i j : Occurrence} (legible : i.isLegible families = true)
    (legible' : j.isLegible families = true) (written : i.tree.text?.isSome = true) :
    i.Alike j ↔ i.equal j = true := by
  rw [isLegible, Bool.and_eq_true, all_eq_true] at legible legible'
  rw [equal, Bool.and_eq_true, Expr.equal_iff legible.1 legible'.1,
    Written.equalItems_iff legible.2 legible'.2]
  constructor
  · rintro ⟨shown, shownHere, shownThere, sameTuple⟩
    exact ⟨Expr.text_inj legible.1 legible'.1 shownHere shownThere,
      Written.tupleQuoted_inj legible.2 legible'.2 sameTuple⟩
  · rintro ⟨sameTree, sameIndex⟩
    obtain ⟨shown, isShown⟩ := Option.isSome_iff_exists.mp written
    exact ⟨shown, isShown, sameTree ▸ isShown, by rw [sameIndex]⟩

end Occurrence

/-- The stores that statements lead to, with the occurrences of those that succeeded. -/
inductive Compilation.History (cfg : Config) : List Occurrence → Store → Prop
  | start (name : Value) : History cfg [] { model := { name } }
  | failed {done : List Occurrence} {s s' : Store} (before : History cfg done s)
      {params : Parameters} {replace : Bool} {stmt : Statement} {e : Error}
      (ran : (applyStatement cfg params replace stmt).run s = (.error e, s')) :
      History cfg done s'
  | succeeded {done : List Occurrence} {s s' : Store} (before : History cfg done s)
      {params : Parameters} {replace : Bool} {stmt : Statement} {added : Added}
      (ran : (applyStatement cfg params replace stmt).run s = (.ok added, s')) :
      History cfg (done ++ stmt.occurrences params) s'

/-! ## What the model remembers -/

variable {cfg : Config} {s s' : Store}

namespace Compilation

variable {done : List Occurrence}

theorem History.session (history : History cfg done s) : Session cfg s := by
  induction history with
  | start name => exact .start name
  | @failed done s s' before params replace stmt e ran ih =>
    have after := ih.statement params replace stmt
    rwa [ran] at after
  | @succeeded done s s' before params replace stmt added ran ih =>
    have after := ih.statement params replace stmt
    rwa [ran] at after

theorem Session.history (session : Session cfg s) : ∃ done, History cfg done s := by
  induction session with
  | start name => exact ⟨[], .start name⟩
  | @statement s before params replace stmt ih =>
    obtain ⟨done, history⟩ := ih
    rcases ran : (applyStatement cfg params replace stmt).run s with ⟨e | added, s'⟩
    · exact ⟨done, history.failed ran⟩
    · exact ⟨_, history.succeeded ran⟩

/-- What the model remembers is what the occurrences write. -/
theorem History.declarations (history : History cfg done s) :
    s.model.declarations.map some = done.map (·.signature?) := by
  induction history with
  | start => rfl
  | failed before ran ih =>
    obtain ⟨ready, closed, -⟩ := before.session.sound
    rw [(model_of_statement_error ready.coherent closed ran).1, ih]
  | succeeded before ran ih =>
    have registers := registers_statement before.session.sound.1 ran
    rw [registers.declarations, ih, map_append]

end Compilation

/-! ## Repetitions -/

/-- A signature is refused exactly if it is on record. -/
theorem refusesRepeat_registerDeclaration {signature : Value} {label : String}
    (isKey : signature.isKey = true) (s : Store) :
    refusesRepeat (registerDeclaration signature label) s
      = s.model.declarations.any signature.same := by
  obtain ⟨before, entry, result⟩ := run_transaction_result _ s
  rw [refusesRepeat, registerDeclaration, result, ← entry, isKey]
  simp only [Bool.not_true, Bool.false_eq_true, if_false, run_bind, run_model]
  cases before.model.declarations.any signature.same with
  | false =>
    simp only [Bool.false_eq_true, if_false]
    rfl
  | true =>
    simp only [if_true]
    rfl

namespace Occurrence

variable {i : Occurrence}

theorem signature_same {shown shown' tuple tuple' : String} :
    (Value.tuple [.str shown, .str tuple]).same (.tuple [.str shown', .str tuple']) = true
      ↔ shown = shown' ∧ tuple = tuple' := by
  simp [Value.same, Value.bothNaN, Value.equal, Value.equalItems]

theorem signature_eq_some {d : Value} :
    i.signature? = some d ↔ ∃ shown, i.tree.text? = some shown
      ∧ d = .tuple [.str shown, .str (Value.tupleQuoted i.index)] := by
  simp only [signature?, Option.map_eq_some_iff]
  exact exists_congr fun shown => and_congr_right fun _ => eq_comm

/-- An occurrence is refused exactly if one on record is written alike. -/
theorem refusesRepeat_register
    (record : s.model.declarations.map some = declared.map (·.signature?)) :
    refusesRepeat i.register s = true ↔ ∃ j ∈ declared, j.Alike i := by
  have known : ∀ d, d ∈ s.model.declarations ↔ ∃ j ∈ declared, j.signature? = some d := by
    intro d
    rw [← mem_map, ← record]
    simp
  cases written : i.tree.text? with
  | none =>
    have never : refusesRepeat i.register s = false := by
      rw [register, written]
      rfl
    rw [never]
    refine ⟨nofun, ?_⟩
    rintro ⟨j, -, shown, -, shownHere, -⟩
    rw [written] at shownHere
    cases shownHere
  | some shown =>
    have registered : refusesRepeat i.register s = refusesRepeat (registerDeclaration
        (.tuple [.str shown, .str (Value.tupleQuoted i.index)]) (i.label shown)) s := by
      rw [register, written]
      rfl
    rw [registered, refusesRepeat_registerDeclaration rfl, any_eq_true]
    constructor
    · rintro ⟨d, onRecord, same⟩
      obtain ⟨j, mem, signed⟩ := (known d).mp onRecord
      obtain ⟨shown', shownThere, rfl⟩ := signature_eq_some.mp signed
      obtain ⟨rfl, sameTuple⟩ := signature_same.mp same
      exact ⟨j, mem, shown, shownThere, written, sameTuple.symm⟩
    · rintro ⟨j, mem, shown', shownThere, shownHere, sameTuple⟩
      rw [written] at shownHere
      cases shownHere
      exact ⟨_, (known _).mpr ⟨j, mem, signature_eq_some.mpr ⟨shown, shownThere, rfl⟩⟩,
        signature_same.mpr ⟨rfl, sameTuple.symm⟩⟩

/-- What is on record can be written. -/
theorem isSome_of_record {m : Model}
    (record : m.declarations.map some = declared.map (·.signature?)) (mem : i ∈ declared) :
    i.tree.text?.isSome = true := by
  have onRecord : i.signature? ∈ m.declarations.map some := by
    rw [record]
    exact mem_map_of_mem mem
  obtain ⟨d, -, signed⟩ := mem_map.mp onRecord
  obtain ⟨shown, written, -⟩ := signature_eq_some.mp signed.symm
  rw [written]
  rfl

end Occurrence

section Statements

variable (cfg) (params : Parameters) (op : Comparison) (left right : Expr)
  (gens : List GeneratorItem) (desc : Value)

/-- The constraint of a binding is refused as a repetition when it is put on record, or not at all.
-/
theorem refusesRepeat_addConstraintInstance (ctx : Context) (s : Store) :
    refusesRepeat (addConstraintInstance cfg op left right gens desc ctx) s
      = refusesRepeat (occurrence op left right gens ctx).register s := by
  have registering : addConstraintInstance cfg op left right gens desc ctx
      = (occurrence op left right gens ctx).register >>= fun _ => (do
        let lhs ← compile cfg left ctx
        let rhs ← compile cfg right ctx
        let label ← constraintLabel desc gens ctx
        let rel ← relationOf (.str op.sign)
        addConstraint cfg label lhs rel rhs label) := by
    unfold Occurrence.register
    rw [bind_assoc]
    rfl
  rw [registering]
  exact RepeatFree.refusesRepeat_bind_eq
    (fun _ => .declareRow op left right gens desc ctx) s

/-- A statement comes to a binding: those before it succeeded, and led from `s` to `s₁`. -/
def Reaches (s : Store) (before : List Context) (ctx : Context) (s₁ : Store) : Prop :=
  ∃ after rows, (bindings gens { parameters := params }).items = before ++ ctx :: after
    ∧ (before.foldlM (declareNext cfg op left right gens desc) []).run
      { s with transaction := some { counters := s.model.counters } } = (.ok rows, s₁)

/-- A statement is refused as a repetition at the first of its bindings that is. -/
theorem refusesRepeat_addConstraints (closed : s.transaction = none) :
    refusesRepeat (addConstraints cfg params op left right gens desc) s = true
      ↔ ∃ before ctx s₁,
        Reaches cfg params op left right gens desc s before ctx s₁
          ∧ refusesRepeat
            (addConstraintInstance cfg op left right gens desc ctx) s₁
            = true := by
  rw [addConstraints, refusesRepeat_transaction closed,
    RepeatFree.refusesRepeat_foldListing (clashFree_bindings gens _), refusesRepeat_foldlM]
  have single : ∀ rows ctx s₁,
      refusesRepeat (declareNext cfg op left right gens desc rows ctx) s₁
        = refusesRepeat (addConstraintInstance cfg op left right gens desc ctx)
          s₁ := by
    intro rows ctx s₁
    refine RepeatFree.refusesRepeat_bind_eq (fun c => Composed.failsOnly ?_) s₁
    cases c with
    | some | none => exact .pure _
  constructor
  · rintro ⟨before, ctx, after, rows, s₁, split, ran, refused⟩
    exact ⟨before, ctx, s₁, ⟨after, rows, split, ran⟩, single rows ctx s₁ ▸ refused⟩
  · rintro ⟨before, ctx, s₁, ⟨after, rows, split, ran⟩, refused⟩
    exact ⟨before, ctx, after, rows, s₁, split, ran, single rows ctx s₁ ▸ refused⟩

variable {cfg params op left right gens desc}
variable {done : List Occurrence} {before : List Context} {ctx : Context} {s₁ : Store}

/-- What is on record when a statement comes to a binding. -/
theorem Reaches.declarations (history : History cfg done s)
    (reached : Reaches cfg params op left right gens desc s before ctx s₁) :
    s₁.model.declarations.map some
      = (done ++ before.map (occurrence op left right gens)).map (·.signature?) := by
  obtain ⟨after, rows, -, ran⟩ := reached
  have ready : s.begun.model.Ready
    cfg := history.session.sound.1
  have registers := registers_declareNext ready ran
  rw [registers.declarations, history.declarations, map_append]

/-- Where all that was declared is legible, an occurrence is refused exactly if it is equal to an
earlier one. -/
theorem refusesRepeat_register_of_legible {i : Occurrence}
    (record : s.model.declarations.map some = declared.map (·.signature?))
    (legible : ∀ j ∈ i :: declared, j.isLegible families = true) :
    refusesRepeat i.register s = true ↔ ∃ j ∈ declared, j.equal i = true := by
  rw [forall_mem_cons] at legible
  rw [Occurrence.refusesRepeat_register record]
  refine exists_congr fun j => and_congr_right fun mem => ?_
  exact Occurrence.alike_iff (legible.2 j mem) legible.1
    (Occurrence.isSome_of_record record mem)

/-- A constraint statement is refused as a repetition exactly if it comes to a binding for which it
is, and there it is exactly if the same was written before, by a statement that succeeded or for an
earlier binding. For legible trees and index values this means that an equal constraint was
declared. -/
theorem repetition_refused_iff (history : History cfg done s) (params : Parameters)
    (op : Comparison) (left right : Expr) (gens : List GeneratorItem) (desc : Value) :
    (refusesRepeat (addConstraints cfg params op left right gens desc) s = true
      ↔ ∃ before ctx s₁,
        Reaches cfg params op left right gens desc s before ctx s₁
          ∧ refusesRepeat
            (addConstraintInstance cfg op left right gens desc ctx) s₁ = true)
      ∧ ∀ before ctx s₁,
        Reaches cfg params op left right gens desc s before ctx s₁ →
          let now := occurrence op left right gens ctx
          let earlier := done ++ before.map (occurrence op left right gens)
          let refused := refusesRepeat
            (addConstraintInstance cfg op left right gens desc ctx) s₁
          (refused = true ↔ ∃ i ∈ earlier, i.Alike now)
            ∧ ∀ families, (∀ i ∈ now :: earlier, i.isLegible families = true) →
              (refused = true ↔ ∃ i ∈ earlier, i.equal now = true) := by
  obtain ⟨-, closed, -⟩ := history.session.sound
  refine ⟨refusesRepeat_addConstraints cfg params op left right gens desc
    closed, fun before ctx s₁ reached => ?_⟩
  have record := reached.declarations history
  dsimp only
  rw [refusesRepeat_addConstraintInstance]
  exact ⟨Occurrence.refusesRepeat_register record,
    fun families legible => refusesRepeat_register_of_legible record legible⟩

end Statements

/-! ## Written alike, and equal -/

namespace Compilation

theorem History.of_toBool {done : List Occurrence} (history : History cfg done s)
    (params : Parameters) (replace : Bool) (stmt : Statement)
    (succeeds : ((applyStatement cfg params replace stmt).run s).1.toBool = true) :
    History cfg (done ++ stmt.occurrences params)
      ((applyStatement cfg params replace stmt).run s).2 := by
  obtain ⟨added, ran⟩ := exists_run_ok succeeds
  exact history.succeeded ran

def threeScope : Parameters := { table := [("x", .int 3)] }

def upToThree (name : String) : Statement :=
  .variableFamily (.str name) [] (.str "continuous") (.data (.int 0)) (.data (.int 3)) .none

def twoColumns : Store :=
  ((applyStatement {} threeScope false (upToThree "y")).run
    ((applyStatement {} threeScope false (upToThree "x")).run {}).2).2

theorem history_twoColumns : History {} [] twoColumns :=
  ((History.start .none).of_toBool threeScope false (upToThree "x") (by decide +kernel)).of_toBool
    threeScope false (upToThree "y") (by decide +kernel)

def column (name : String) : Expr := .ref (.str name) []

def oneTwoOne : List GeneratorItem := [.generator "i" (.data (.tuple [.int 1, .int 2, .int 1]))]

def withIndex (i : Int) : Context := { bindings := [("i", .int i)], parameters := threeScope }

theorem reaches_third : ∃ s₁, Reaches {} threeScope .le (column "y") (column "x") oneTwoOne .none
    twoColumns [withIndex 1, withIndex 2] (withIndex 1) s₁ := by
  have succeeds : (([withIndex 1, withIndex 2].foldlM
      (declareNext {} .le (column "y") (column "x") oneTwoOne .none) []).run
      twoColumns.begun).1.toBool
        = true := by decide +kernel
  rcases ran : ([withIndex 1, withIndex 2].foldlM
      (declareNext {} .le (column "y") (column "x") oneTwoOne .none) []).run twoColumns.begun
    with ⟨e | rows, s₁⟩
  · rw [ran] at succeeds
    cases succeeds
  · exact ⟨s₁, [], rows, rfl, ran⟩

theorem third_binding_refused : History {} [] twoColumns
    ∧ refusesRepeat (addConstraints {} threeScope .le (column "y") (column "x") oneTwoOne .none)
      twoColumns = true := by
  refine ⟨history_twoColumns, ?_⟩
  obtain ⟨s₁, reached⟩ := reaches_third
  have exactly := repetition_refused_iff history_twoColumns threeScope .le (column "y") (column "x")
    oneTwoOne .none
  obtain ⟨-, atBinding⟩ := exactly.2 _ _ s₁ reached
  refine exactly.1.mpr ⟨_, _, s₁, reached, (atBinding ["x", "y"] ?_).mpr ?_⟩
  · decide +kernel
  · exact ⟨_, List.mem_cons_self, by decide +kernel⟩

/-- After `y` was bounded by the variable `x`, it cannot be bounded by the parameter `x`, which is
not the same constraint. After it was bounded by 1, bounding it by the double 1 is no repetition,
though the trees are equal. -/
theorem namesake_refused :
    (∃ i s, History {} [i] s
      ∧ i.equal (occurrence .le (column "y") (.symbol "x") [] {}) = false
      ∧ refusesRepeat (addConstraints {} threeScope .le (column "y") (.symbol "x") [] .none) s
        = true)
    ∧ ∃ i s, History {} [i] s
      ∧ i.equal (occurrence .le (column "y") (.literal (.float (.ofInt 1))) [] {}) = true
      ∧ ((addConstraints {} threeScope .le (column "y") (.literal (.float (.ofInt 1))) []
        .none).run s).1.toBool = true := by
  have bounded (bound : Expr) := history_twoColumns.of_toBool threeScope false
    (.constraintFamily .le (column "y") bound [] .none)
  exact ⟨⟨_, _, bounded (column "x") (by decide +kernel), by decide +kernel, by decide +kernel⟩,
    ⟨_, _, bounded (.literal (.int 1)) (by decide +kernel), by decide +kernel, by decide +kernel⟩⟩

end Compilation

end LinearProgram
