import LinearProgram.Proofs.Outcome
import LinearProgram.Proofs.Run
import LinearProgram.Proofs.Trees

/-!
# The parts of an evaluation

How each part of an evaluation ends, for all readings of failures that admit those over the values
at hand (`Tolerant`). What comes out of a container was in it (`Value.Holds`, `Value.Lists`).
-/

namespace LinearProgram

open List

variable {α β σ : Type} {allowed : Error → Prop} {container key v : Value} {source : Expr}
  {name : String}

/-! ## Listings -/

namespace Listing

/-- How a listing may end: with items that have one property, and if it breaks off, with an error
that has another. -/
structure Ends {α : Type} (good : α → Prop) (allowed : Error → Prop) (listing : Listing α) :
    Prop where
  items : ∀ a ∈ listing.items, good a
  stop : ∀ e, listing.stop = some e → allowed e

/-- A listing that breaks off only with an error of some property. -/
abbrev FailsOnly (allowed : Error → Prop) (listing : Listing α) : Prop :=
  listing.Ends (fun _ => True) allowed

variable {good : β → Prop} {l : List α} {parts : α → Listing β}

theorem ends_nil : (⟨[], none⟩ : Listing β).Ends good allowed :=
  ⟨fun _ mem => absurd mem not_mem_nil, nofun⟩

theorem ends_stop {e : Error} (isAllowed : allowed e) :
    (⟨[], some e⟩ : Listing β).Ends good allowed := by
  refine ⟨fun b mem => absurd mem not_mem_nil, ?_⟩
  rintro e' ⟨⟩
  exact isAllowed

theorem Ends.chain (each : ∀ a ∈ l, (parts a).Ends good allowed) :
    (chain parts l).Ends good allowed := by
  induction l with
  | nil => exact ends_nil
  | cons _ _ ih =>
    rw [forall_mem_cons] at each
    rw [Listing.chain]
    dsimp only
    split
    · exact each.1
    · exact ⟨forall_mem_append.mpr ⟨each.1.items, (ih each.2).items⟩, (ih each.2).stop⟩

theorem mem_chain {b : β} (mem : b ∈ (Listing.chain parts l).items) :
    ∃ a ∈ l, b ∈ (parts a).items := by
  have each : ∀ a ∈ l, (parts a).Ends (fun b => ∃ a ∈ l, b ∈ (parts a).items) fun _ => True :=
    fun a known => ⟨fun b mem => ⟨a, known, mem⟩, fun _ _ => trivial⟩
  exact (Ends.chain each).items b mem

theorem Ends.foldM {listing : Listing β} (listed : listing.Ends good allowed) {kept : σ → Prop}
    {f : σ → β → Except Error σ}
    (step : ∀ b, kept b → ∀ a, good a → LinearProgram.Ends kept allowed (f b a)) {b : σ}
    (start : kept b) : LinearProgram.Ends kept allowed (listing.foldM f b) := by
  have folded : LinearProgram.Ends kept allowed (listing.items.foldlM f b) :=
    Ends.foldlM (fun b isKept a mem => step b isKept a (listed.items a mem)) start
  refine folded.bind fun result _ isKept => ?_
  split
  case h_1 e stopped => exact listed.stop e stopped
  case h_2 => exact isKept

end Listing

/-! ## Comparisons -/

namespace Value

/-- The answer to a comparison of plain values is a truth value; the host answers for its own
objects. -/
theorem ends_compareBy {host : Host} {post : Value → Prop} (truth : ∀ b, post (bool b))
    {refuse : Except Error Bool} {op : Comparison} {left right : Value}
    (refused : FailsOnly allowed refuse)
    (foreign : (left.isForeign || right.isForeign) = true → ∀ answer,
      host.compare op left right = .ok answer → post answer)
    (broken : (left.isForeign || right.isForeign) = true → ∀ b, allowed (.broken b)) :
    Ends post allowed (host.compareBy refuse op left right) := by
  have declined : Ends post allowed (refuse.map bool) :=
    Ends.map (Ends.mono refused (fun b _ => truth b) fun _ => id)
  unfold Host.compareBy
  split
  case isTrue object =>
    split
    case h_1 answer answered => exact foreign object answer answered
    case h_2 => exact declined
    case h_3 => exact broken object _
  case isFalse =>
    split
    · exact truth _
    · exact declined

end Value

/-! ## Steps -/

section Steps

variable {trees : List Expr} {ctx : Context} {good : Number → Prop} {post : Value → Prop}

/-- A line that reads a number. -/
theorem Ends.bind_number {f : Number → Except Error β} {next : β → Prop}
    (first : Ends good allowed (source.evaluateNumber ctx))
    (rest : ∀ x, good x → Ends next allowed (f x)) :
    Ends next allowed (source.evaluate ctx >>= fun v => requireNumber source v >>= f) := by
  rw [← bind_assoc]
  exact first.bind fun x _ => rest x

theorem ends_evaluateNumbers (each : ∀ e ∈ trees, Ends good allowed (e.evaluateNumber ctx)) :
    Ends (∀ x ∈ ·, good x) allowed (evaluateNumbers trees ctx) := by
  induction trees with
  | nil => exact forall_mem_nil _
  | cons _ _ ih =>
    rw [forall_mem_cons] at each
    rw [evaluateNumbers]
    refine each.1.bind_number fun x isGood => (ih each.2).bind fun xs _ areGood => ?_
    exact forall_mem_cons.mpr ⟨isGood, areGood⟩

/-- A step into a container. A bare name as key stands for its value if it is bound, and for itself
otherwise. -/
theorem ends_evaluate_lookup {isKey result : Value → Prop} {container key : Expr} {dot : Bool}
    (isContainer : Ends post allowed (container.evaluate ctx))
    (looked : ∀ c k, post c → isKey k → Ends result allowed
      (c.lookup ctx.parameters.host k dot))
    (wild : key = .wildcard → Ends isKey allowed (raise .wildcardKey))
    (bound : ∀ name v, key = .symbol name → dot = false → ctx.bindings.get? name = some v →
      isKey v.normalize)
    (bare : ∀ name, key = .symbol name → isKey (.str name))
    (other : (∀ name, key ≠ .symbol name) → Ends isKey allowed (key.evaluate ctx)) :
    Ends result allowed ((Expr.lookup container key dot).evaluate ctx) := by
  rw [Expr.evaluate]
  refine isContainer.bind fun c _ isC => ?_
  cases key with
  | wildcard => exact (wild rfl).bind fun k _ => looked c k isC
  | symbol name =>
    dsimp only
    split
    case h_1 v found =>
      split at found
      case isTrue => cases found
      case isFalse plain =>
        exact looked c v.normalize isC (bound name v rfl (Bool.eq_false_iff.mpr plain) found)
    case h_2 => exact looked c (.str name) isC (bare name rfl)
  | _ => exact (other nofun).bind fun k _ => looked c k isC

/-- Filters and generators are taken one by one: what is known of the rest of them and of a context
where they start (`known`) leads to what is known of the contexts at the end. -/
theorem ends_bindings (known : List GeneratorItem → Context → Prop) {good : Context → Prop}
    (done : ∀ {ctx}, known [] ctx → good ctx)
    (filter : ∀ {cond rest ctx}, known (.filter cond :: rest) ctx →
      FailsOnly allowed (filterVerdict cond (cond.evaluate ctx)) ∧ known rest ctx)
    (generator : ∀ {name domain rest ctx}, known (.generator name domain :: rest) ctx →
      Ends (∀ v ∈ ·, known rest (ctx.bind name v)) allowed (domain.domainValues name ctx))
    {gens : List GeneratorItem} {ctx : Context} (start : known gens ctx) :
    (bindings gens ctx).Ends good allowed := by
  induction gens generalizing ctx with
  | nil =>
    refine ⟨fun inner mem => ?_, nofun⟩
    rw [mem_singleton.mp mem]
    exact done start
  | cons item rest ih =>
    cases item with
    | filter cond =>
      obtain ⟨verdict, later⟩ := filter start
      unfold bindings
      split
      · exact ih later
      · exact Listing.ends_nil
      case h_3 e failed => exact Listing.ends_stop (verdict.of_error failed)
    | generator name domain =>
      have values := generator start
      unfold bindings
      split
      case h_1 items listed => exact Listing.Ends.chain fun v mem => ih (values.of_ok listed v mem)
      case h_2 e failed => exact Listing.ends_stop (values.of_error failed)

/-- A piecewise linear function has a value if its pieces do. -/
theorem ends_evaluateSegments {x : Number} {breakpoints slopes offsets : List Value}
    (ends : ∀ v ∈ breakpoints, FailsOnly allowed (requireLessEq v (.number x))
      ∧ FailsOnly allowed (requireLessEq (.number x) v))
    (pieces : ∀ slope ∈ slopes, ∀ intercept ∈ offsets,
      Ends post allowed (affine slope intercept x)) :
    Ends (∀ v ∈ ·, post v) allowed (evaluateSegments x breakpoints slopes offsets) := by
  fun_induction evaluateSegments x breakpoints slopes offsets with
  | case1 low high points slope slopes intercept offsets ih =>
    simp only [forall_mem_cons] at ends pieces
    have rest : Ends (∀ v ∈ ·, post v) allowed
        (evaluateSegments x (high :: points) slopes offsets) :=
      ih (forall_mem_cons.mpr ends.2) fun s isSlope => (pieces.2 s isSlope).2
    have chosen : ∀ within : Bool, Ends (∀ v ∈ ·, post v) allowed
        (if within then do
          let y ← affine slope intercept x
          pure (some y)
        else evaluateSegments x (high :: points) slopes offsets) := by
      intro within
      split
      · refine pieces.1.1.bind fun y _ isY => ?_
        rintro v ⟨⟩
        exact isY
      · exact rest
    refine ends.1.1.bind fun above _ _ => ?_
    dsimp only
    split
    · exact ends.2.1.2.bind fun within _ _ => chosen within
    · exact chosen false
  | case2 => rintro v ⟨⟩

end Steps

/-! ## Failures over values -/

/-- The kinds of causes that lie in the values at hand. -/
def ErrorKind.isOrdinary : ErrorKind → Bool
  | domain | unboundSymbol | keyNotFound | nonNumeric | divisionByZero => true
  | _ => false

/-- A reading of failures that admits those over the values at hand, if they have a message, and
numbers or sequences that are too large. -/
class Tolerant (allowed : Error → Prop) : Prop where
  refused : ∀ cause : Cause, cause.kind.isOrdinary = true → cause.message?.isSome = true →
    allowed (.refused cause)
  worded : ∀ cause : Cause, allowed (.refused cause) →
    cause.message?.isSome = true ∨ allowed (.broken .unsupported)
  overflow : allowed (.broken .overflow)
  outOfMemory : allowed (.broken .outOfMemory)

instance : Tolerant fun _ => True :=
  ⟨fun _ _ _ => trivial, fun _ _ => .inr trivial, trivial, trivial⟩

/-- A tree has a written form, or messages need none. -/
def Worded (allowed : Error → Prop) (e : Expr) : Prop :=
  e.text?.isSome = true ∨ allowed (.broken .unsupported)

section Tolerant

variable [Tolerant allowed] {post : α → Prop} {cause : Cause}

theorem Tolerant.ends_raise (ordinary : cause.kind.isOrdinary = true)
    (worded : cause.message?.isSome = true ∨ allowed (.broken .unsupported)) :
    Ends post allowed (raise cause) := by
  refine Ends.raise (Tolerant.refused cause ordinary) fun wordless => ?_
  rw [wordless] at worded
  exact worded.resolve_left Bool.false_ne_true

/-- A failure whose message shows a tree. -/
theorem Worded.ends_raise (worded : Worded allowed source)
    (ordinary : cause.kind.isOrdinary = true)
    (shows : ∀ text, source.text? = some text → cause.message?.isSome = true) :
    Ends post allowed (raise cause) := by
  refine Tolerant.ends_raise ordinary (worded.imp_left fun isSome => ?_)
  obtain ⟨text, isText⟩ := Option.isSome_iff_exists.mp isSome
  exact shows text isText

theorem ends_orOverflow {x : Option α} : Ends (fun a => x = some a) allowed (orOverflow x) := by
  cases x with
  | none => exact Tolerant.overflow
  | some => exact rfl

@[simp] theorem failsOnly_orOverflow (x : Option α) : FailsOnly allowed (orOverflow x) :=
  ends_orOverflow.failsOnly

theorem failsOnly_resolve (ctx : Context) (name : String) :
    FailsOnly allowed (ctx.resolve name) := by
  unfold Context.resolve
  split
  · exact trivial
  · split
    · exact trivial
    · exact Tolerant.ends_raise rfl (.inl rfl)

/-! ## Containers -/

namespace Value

/-- The values that one step into a container may lead to. -/
def Holds : Value → Value → Prop
  | list items, v | tuple items, v => v ∈ items
  | table entries, v => ∃ entry ∈ entries, entry.2 = v
  | foreign _ core _, v => Holds core v
  | record fields, v => ∃ field ∈ fields, field.2 = v
  | range _ _ _, v => ∃ n : Int, v = int n
  | number x, v | cell x, v => ∃ name, numberPart? x name = some v
  | _, _ => False

theorem holds_of_item {n : Nat} (found : container.item? n = some v) : container.Holds v := by
  unfold item? at found
  split at found
  · exact mem_of_getElem? found
  · exact mem_of_getElem? found
  · exact mem_of_getElem? found
  · rw [Option.ite_none_right_eq_some] at found
    exact ⟨_, (Option.some.inj found.2).symm⟩
  · cases found

theorem eq_str_of_str? {s : String} (found : v.str? = some s) : v = str s := by
  cases v with
  | str =>
    cases found
    rfl
  | _ => cases found

theorem holds_of_part (found : container.part? name = some v) : container.Holds v := by
  cases container with
  | record =>
    obtain ⟨field, known, rfl⟩ := Option.map_eq_some_iff.mp found
    exact ⟨field, mem_of_find?_eq_some known, rfl⟩
  | number | cell => exact ⟨name, found⟩
  | _ => cases found

theorem mem_of_get {entries : Entries} (found : entries.get? key = some v) :
    ∃ entry ∈ entries, entry.2 = v := by
  obtain ⟨entry, known, rfl⟩ := Option.map_eq_some_iff.mp found
  exact ⟨entry, mem_of_find?_eq_some known, rfl⟩

section Lookups

variable {post : Value → Prop} (held : ∀ w, container.Holds w → post w.normalize)

include held

theorem ends_lookupTable {entries : Entries}
    (values : ∀ entry ∈ entries, container.Holds entry.2)
    (isKey : key.isKey = true ∨ allowed (.broken .unsupported)) :
    Ends post allowed (lookupTable entries key) := by
  have held : ∀ {key w}, entries.get? key = some w → post w.normalize := fun found => by
    obtain ⟨entry, mem, rfl⟩ := mem_of_get found
    exact held _ (values entry mem)
  unfold lookupTable
  split
  case isTrue notKey =>
    refine isKey.resolve_left fun isKey => ?_
    rw [isKey] at notKey
    cases notKey
  case isFalse =>
    split
    case h_1 found => exact held found
    case h_2 =>
      split
      case h_1 found => exact held found
      case h_2 => exact Tolerant.ends_raise rfl (.inl rfl)

theorem ends_lookupPosition (key : Value) (length : Nat) :
    Ends post allowed (lookupPosition container length key) := by
  unfold lookupPosition
  split
  · exact Tolerant.ends_raise rfl (.inl rfl)
  · split
    · exact Tolerant.overflow
    · split
      case h_1 found =>
        split at found
        · cases found
        · exact held _ (holds_of_item found)
      case h_2 => exact Tolerant.ends_raise rfl (.inl rfl)

/-- A lookup gives a value that the container holds, or an attribute that the host gives it. -/
theorem ends_lookup {host : Host} {dot : Bool}
    (isKey : key.isKey = true ∨ allowed (.broken .unsupported))
    (attributes : dot = true → ∀ name w, key = .str name → host.attribute? container name = some w →
      post w.normalize) : Ends post allowed (container.lookup host key dot) := by
  unfold lookup
  split
  · exact ends_lookupTable held (fun entry mem => ⟨entry, mem, rfl⟩) isKey
  · exact ends_lookupTable held (fun entry mem => ⟨entry, mem, rfl⟩) isKey
  · split
    · exact ends_lookupPosition held key _
    · split
      case h_1 found =>
        split at found
        case isTrue dotted =>
          obtain ⟨name, isName, found⟩ := Option.bind_eq_some_iff.mp found
          rcases Option.or_eq_some_iff.mp found with part | ⟨-, given⟩
          · exact held _ (holds_of_part part)
          · exact attributes dotted name _ (eq_str_of_str? isName) given
        case isFalse => cases found
      case h_2 => exact Tolerant.ends_raise rfl (.inl rfl)

end Lookups

theorem ends_rangeList (start stop step : Int) :
    Ends (∀ v ∈ ·, ∃ n : Int, v = int n) allowed (rangeList start stop step) := by
  unfold rangeList
  dsimp only
  split
  · exact Tolerant.overflow
  · split
    · exact Tolerant.outOfMemory
    · intro v mem
      obtain ⟨k, -, rfl⟩ := mem_map.mp mem
      exact ⟨_, rfl⟩

/-- The values of a domain. -/
def Lists : Value → Value → Prop
  | list items, v | tuple items, v => v ∈ items
  | table entries, v => ∃ entry ∈ entries, entry.1 = v
  | foreign _ core listed, v => Lists core v ∨ v ∈ listed
  | range _ _ _, v => ∃ n : Int, v = int n
  | _, _ => False

end Value

theorem ends_domainItems {domain : Value} {post : Value → Prop}
    (listed : ∀ w, domain.Lists w → post w.normalize) (name : String) :
    Ends (∀ v ∈ ·, post v) allowed (domainItems name domain) := by
  unfold domainItems
  split
  · refine (Value.ends_rangeList _ _ _).mono (fun items whole v mem => ?_) fun _ => id
    obtain ⟨n, rfl⟩ := whole v mem
    exact listed _ ⟨n, rfl⟩
  · exact forall_mem_map.mpr listed
  · exact forall_mem_map.mpr listed
  · exact forall_mem_map.mpr fun entry inside => listed _ ⟨entry, inside, rfl⟩
  · exact forall_mem_map.mpr fun entry inside => listed _ (.inl ⟨entry, inside, rfl⟩)
  · exact Tolerant.ends_raise rfl (.inl rfl)
  · exact Tolerant.ends_raise rfl (.inl rfl)
  · split
    · exact forall_mem_map.mpr fun v mem => listed v (.inr mem)
    · exact Tolerant.ends_raise rfl (.inl rfl)
  · exact Tolerant.ends_raise rfl (.inl rfl)

/-! ## Numbers and truth values -/

theorem ends_requireNumber (worded : Worded allowed source) (v : Value) :
    Ends (fun x => v = .number x) allowed (requireNumber source v) := by
  unfold requireNumber
  split
  · exact rfl
  · exact worded.ends_raise rfl fun text isText => by simp [Cause.message?, isText]

theorem failsOnly_requireTruth (worded : Worded allowed source) (v : Value) :
    FailsOnly allowed (requireTruth source v) := by
  have refused : ∀ v, FailsOnly allowed (raise (.notBoolean source v) : Except Error Bool) :=
    fun v => worded.ends_raise rfl fun text isText => by simp [Cause.message?, isText]
  unfold requireTruth
  split
  · exact trivial
  · split
    · exact trivial
    · split
      · exact trivial
      · exact refused _
  · exact refused _

theorem failsOnly_applyArithmetic (worded : Worded allowed source) (op : Arithmetic)
    (x y : Number) : FailsOnly allowed (applyArithmetic source op x y) := by
  unfold applyArithmetic
  split
  · exact failsOnly_orOverflow _
  · exact failsOnly_orOverflow _
  · exact failsOnly_orOverflow _
  · split
    · exact worded.ends_raise rfl fun text isText => by simp [Cause.message?, isText]
    · exact failsOnly_orOverflow _

theorem failsOnly_extremum (op : Aggregate) (xs : List Number) :
    FailsOnly allowed (extremum op xs) := by
  cases xs with
  | nil => exact Tolerant.ends_raise rfl (.inl rfl)
  | cons => exact trivial

theorem ends_integerRange (start stop : Number) :
    Ends (fun v => ∃ items, v = .list items ∧ ∀ i ∈ items, ∃ n : Int, i = .int n) allowed
      (integerRange start stop) := by
  unfold integerRange
  split
  · exact Ends.map ((Value.ends_rangeList _ _ _).mono (fun items whole => ⟨items, rfl, whole⟩)
      fun _ => id)
  · exact Tolerant.ends_raise rfl (.inl rfl)

/-- A filter passes on how its condition failed, but for conditions that are not numeric. -/
theorem failsOnly_filterVerdict {cond : Expr} (worded : Worded allowed cond)
    {result : Except Error Value} (fails : FailsOnly allowed result) :
    FailsOnly allowed (filterVerdict cond result) := by
  unfold filterVerdict
  split
  · exact trivial
  · exact worded.ends_raise rfl fun text isText => by simp [Cause.message?, isText]
  case h_3 cause =>
    split
    · rcases Tolerant.worded cause fails with isSome | wordless
      · obtain ⟨inner, isInner⟩ := Option.isSome_iff_exists.mp isSome
        exact worded.ends_raise rfl fun text isText => by simp [Cause.message?, isText, isInner]
      · exact Tolerant.ends_raise rfl (.inr wordless)
    · exact fails
  · exact fails

/-! ## Trees -/

section Trees

variable {trees : List Expr} {ctx : Context} {good : Number → Prop} {post : Value → Prop}

theorem ends_evaluateNumber (worded : Worded allowed source)
    (ends : Ends post allowed (source.evaluate ctx)) :
    Ends (fun x => post (.number x)) allowed (source.evaluateNumber ctx) := by
  refine ends.bind fun v _ isValue => (ends_requireNumber worded v).mono (fun x isNumber => ?_)
    fun _ => id
  rwa [isNumber] at isValue

section Sums

variable (closed : ∀ {x y z : Number}, good x → good y → x.add y = some z → good z)

include closed

theorem ends_evaluateSum (each : ∀ e ∈ trees, Ends good allowed (e.evaluateNumber ctx))
    {total : Number} (start : good total) :
    Ends good allowed (evaluateSum trees ctx total) := by
  induction trees generalizing total with
  | nil => exact start
  | cons _ _ ih =>
    rw [forall_mem_cons] at each
    rw [evaluateSum]
    refine each.1.bind_number fun x isGood => ends_orOverflow.bind fun next _ added => ?_
    exact ih each.2 (closed start isGood added)

theorem ends_evaluate_sumOver {gens : List GeneratorItem} {body : Expr} {fit : Context → Prop}
    (listed : (bindings gens ctx).Ends fit allowed)
    (each : ∀ inner, fit inner → Ends good allowed (body.evaluateNumber inner))
    (start : good (.int 0)) :
    Ends (fun v => ∃ x, v = .number x ∧ good x) allowed
      ((Expr.sumOver body gens).evaluate ctx) := by
  rw [Expr.evaluate]
  refine (listed.foldM (fun total isTotal inner isFit => ?_) start).bind fun x _ isGood =>
    ⟨x, rfl, isGood⟩
  refine (each inner isFit).bind_number fun x isGood => ?_
  exact ends_orOverflow.mono (fun next => closed isTotal isGood) fun _ => id

end Sums

section Truth

variable {post : Expr → Value → Prop}
  (each : ∀ e ∈ trees, Worded allowed e ∧ Ends (post e) allowed (e.evaluate ctx))

include each

theorem failsOnly_evaluateAll : FailsOnly allowed (evaluateAll trees ctx) := by
  induction trees with
  | nil => exact trivial
  | cons _ _ ih =>
    rw [forall_mem_cons] at each
    rw [evaluateAll]
    refine each.1.2.bind fun v _ _ => (failsOnly_requireTruth each.1.1 v).bind fun b _ _ => ?_
    split
    · exact ih each.2
    · exact trivial

theorem failsOnly_evaluateAny : FailsOnly allowed (evaluateAny trees ctx) := by
  induction trees with
  | nil => exact trivial
  | cons _ _ ih =>
    rw [forall_mem_cons] at each
    rw [evaluateAny]
    refine each.1.2.bind fun v _ _ => (failsOnly_requireTruth each.1.1 v).bind fun b _ _ => ?_
    split
    · exact trivial
    · exact ih each.2

end Truth

theorem ends_domainValues {domain : Datum} {item : Value → Prop}
    (listed : ∀ v w, post v → v.Lists w → item w.normalize)
    (data : ∀ v, domain = .data v → post v)
    (tree : ∀ e, domain = .tree e → Worded allowed e
      ∧ (e.isConstant = true → Ends post allowed (e.evaluate ctx))) :
    Ends (∀ v ∈ ·, item v) allowed (domain.domainValues name ctx) := by
  cases domain with
  | data value => exact ends_domainItems (fun w => listed value w (data value rfl)) name
  | tree e =>
    obtain ⟨worded, ends⟩ := tree e rfl
    unfold Datum.domainValues
    split
    case isTrue constant =>
      exact (ends constant).bind fun v _ isV => ends_domainItems (fun w => listed v w isV) name
    case isFalse =>
      exact worded.ends_raise rfl fun text isText => by simp [Cause.message?, isText]

theorem ends_evaluatePiecewise {x : Number} {breakpoints slopes offsets : List Value}
    (ends : ∀ v ∈ breakpoints, FailsOnly allowed (requireLessEq v (.number x))
      ∧ FailsOnly allowed (requireLessEq (.number x) v))
    (pieces : ∀ slope ∈ slopes, ∀ intercept ∈ offsets,
      Ends post allowed (affine slope intercept x)) :
    Ends post allowed (evaluatePiecewise breakpoints slopes offsets x) := by
  refine (ends_evaluateSegments ends pieces).bind fun found _ isValue => ?_
  split
  · exact isValue _ rfl
  · exact Tolerant.ends_raise rfl (.inl rfl)

end Trees

end Tolerant

end LinearProgram
