import Mathlib
import LinearProgram.Numeric.Host
import LinearProgram.Parameters
import LinearProgram.Proofs.Agreement
import LinearProgram.Proofs.Enumeration

/-!
# Arrays in the place of lists do not change values

Flat lists of numbers become arrays of the host. A tree whose value is a number or a text keeps it
(`arrays_keep_values`) if the host's arrays give back integers of a machine word
(`Host.KeepsWords`), the lists hold such integers (`Value.HoldsWords`), and comparisons are between
numbers and texts (`Expr.ComparesScalars`). The two evaluations go along with each other
(`Follows`), on values that belong together (`Value.Converted`).
-/

namespace LinearProgram

open List Parameters

variable {host : Host} {entries : Entries} {c : Context}

/-! ## Lists of machine words -/

/-- Integers below `2^63` in magnitude make a flat array, whose items and whose list give them
back. -/
def Host.KeepsWords (host : Host) : Prop :=
  ∀ ns : List Int, ns ≠ [] → (∀ n ∈ ns, n.natAbs < 2 ^ 63) → ∃ view cells,
    host.arrayOf (ns.map .int) = .foreign view (.list cells) (ns.map Value.int)
      ∧ view.isFlat = true ∧ cells.map Value.normalize = ns.map Value.int

mutual

/-- The lists of a value, and of the tables in it, that hold numbers only hold integers below `2^63`
in magnitude only. -/
def Value.HoldsWords : Value → Prop
  | .table entries => Entries.HoldWords entries
  | .list items => (plainNumbers? items).isSome →
    ∃ ns : List Int, items = ns.map Value.int ∧ ∀ n ∈ ns, n.natAbs < 2 ^ 63
  | _ => True

def Entries.HoldWords : List (Value × Value) → Prop
  | [] => True
  | (_, value) :: rest => value.HoldsWords ∧ Entries.HoldWords rest

end

theorem asArrays_eq_map (entries : Entries) :
    asArrays host entries = entries.map fun entry => (entry.1, asArray host entry.2) := by
  induction entries with
  | nil => rfl
  | cons _ _ ih => rw [asArrays, ih, map_cons]

theorem Entries.holdWords_iff :
    Entries.HoldWords entries ↔ ∀ entry ∈ entries, entry.2.HoldsWords := by
  induction entries with
  | nil => simp [HoldWords]
  | cons _ _ ih => rw [HoldWords, ih, forall_mem_cons]

/-! ## Arrays of the numeric host -/

section Words

variable {ns : List Int}

theorem ofNumber_word {n : Int} (word : n.natAbs < 2 ^ 63) :
    CellType.ofNumber (.int n) = .signed := by
  have power : Int.pow 2 63 = 2 ^ 63 := rfl
  rw [CellType.ofNumber, power, if_pos (by omega)]

theorem ofNumbers_words (words : ∀ n ∈ ns, n.natAbs < 2 ^ 63) (nonempty : ns ≠ []) :
    CellType.ofNumbers (ns.map Number.int) = .signed := by
  obtain ⟨n, rest, rfl⟩ := exists_cons_of_ne_nil nonempty
  rw [forall_mem_cons] at words
  rw [map_cons, CellType.ofNumbers, ofNumber_word words.1]
  have others := words.2
  clear words nonempty
  induction rest with
  | nil => rfl
  | cons _ _ ih =>
    rw [forall_mem_cons] at others
    rw [map_cons, foldl_cons, ofNumber_word others.1]
    exact ih others.2

/-- Integers that are read one by one. -/
theorem mapM_words {read : Value → Option Number} (each : ∀ n, read (.int n) = some (.int n))
    (ns : List Int) : (ns.map Value.int).mapM read = some (ns.map Number.int) := by
  induction ns with
  | nil => rfl
  | cons n ns ih =>
    rw [map_cons, mapM_cons, each, ih]
    rfl

/-- The rows of some integers, and what is made of them. -/
theorem rows_words (ns : List Int) :
    Grid.bottomOf (ns.map fun n => .item (.int n)) = ns.map Value.int
      ∧ Grid.convertAll .signed (ns.map fun n => .item (.int n)) = ns.map (fun n => .item (.int n))
      ∧ Grid.toValues .signed (ns.map fun n => .item (.int n)) = ns.map (fun n => .cell (.int n))
      ∧ Grid.listings (ns.map fun n => .item (.int n)) = ns.map Value.int := by
  induction ns with
  | nil => exact ⟨rfl, rfl, rfl, rfl⟩
  | cons n ns ih =>
    obtain ⟨bottom, converted, cells, listed⟩ := ih
    simp only [map_cons, Grid.bottomOf, Grid.convertAll, Grid.toValues, Grid.listings, bottom,
      converted, cells, listed]
    exact ⟨rfl, rfl, rfl, rfl⟩

theorem numeric_keepsWords : Host.numeric.KeepsWords := by
  intro ns nonempty words
  obtain ⟨bottom, converted, cells, listed⟩ := rows_words ns
  have numbers : (ns.map Value.int).mapM Grid.number? = some (ns.map Number.int) :=
    mapM_words (fun _ => rfl) ns
  refine ⟨(Grid.rows (ns.map fun n => .item (.int n))).view .signed,
    ns.map (fun n => .cell (.int n)), ?_, ?_, by simp [Value.normalize, Value.int]⟩
  · show Grid.toArray _ = _
    rw [map_map]
    show Grid.toArray (.rows (ns.map fun n => .item (.int n))) = _
    simp only [Grid.toArray, Grid.bottom, bottom, numbers, ofNumbers_words words nonempty,
      Grid.convert, converted, Grid.toValue, cells, listed]
  · obtain ⟨n, rest, rfl⟩ := exists_cons_of_ne_nil nonempty
    rfl

end Words

/-! ## Values that belong together -/

/-- The same value, integers in a list and in a flat array, or a table before and after its lists
are turned into arrays. -/
inductive Value.Converted (host : Host) : Value → Value → Prop
  | same (v : Value) : Converted host v v
  | array {ns : List Int} {view : View} {cells : List Value} (flat : view.isFlat = true)
      (words : cells.map Value.normalize = ns.map Value.int) :
      Converted host (.list (ns.map Value.int)) (.foreign view (.list cells) (ns.map Value.int))
  | table {entries : Entries} (words : Entries.HoldWords entries) :
      Converted host (.table entries) (.table (asArrays host entries))

theorem Value.HoldsWords.converted {v : Value} (keeps : host.KeepsWords) (words : v.HoldsWords) :
    v.Converted host (asArray host v) := by
  cases v with
  | table => exact .table words
  | list items =>
    rw [asArray]
    split
    case h_1 numbers =>
      obtain ⟨ns, rfl, small⟩ := words (by rw [numbers]; rfl)
      rw [plainNumbers?, mapM_words fun _ => rfl, Option.some_inj] at numbers
      have nonempty : ns ≠ [] := by
        rintro rfl
        cases numbers
      obtain ⟨view, cells, isArray, flat, items⟩ := keeps ns nonempty small
      rw [← numbers, isArray]
      exact .array flat items
    case h_2 => exact .same _
  | _ => exact .same _

namespace Value

/-- A number or a text. -/
def IsScalar : Value → Prop
  | number _ | str _ => True
  | _ => False

namespace Converted

variable {v v' w : Value}

theorem eq_of_scalar (converted : Converted host v v') (scalar : v.IsScalar) : v = v' := by
  cases converted with
  | same => rfl
  | array | table => exact scalar.elim

theorem normalize (converted : Converted host v v') :
    Converted host v.normalize v'.normalize := by
  cases converted with
  | same => exact .same _
  | array flat words => exact .array flat words
  | table words => exact .table words

end Converted

end Value

theorem Entries.get?_asArrays (entries : Entries) (key : Value) :
    Entries.get? (asArrays host entries) key = (entries.get? key).map (asArray host) := by
  rw [asArrays_eq_map, get?, get?, find?_map, Option.map_map, Option.map_map]
  rfl

/-- What stands under a key of a table that holds words is turned into an array itself. -/
theorem Entries.HoldWords.get? (keeps : host.KeepsWords) (words : Entries.HoldWords entries)
    {key v : Value} (found : entries.get? key = some v) :
    ∃ v', Entries.get? (asArrays host entries) key = some v' ∧ v.Converted host v' := by
  refine ⟨asArray host v, by rw [Entries.get?_asArrays, found]; rfl, ?_⟩
  obtain ⟨entry, known, rfl⟩ := Option.map_eq_some_iff.mp found
  exact (Entries.holdWords_iff.mp words entry (mem_of_find?_eq_some known)).converted keeps

/-! ## Computations that belong together -/

/-- Where the first computation succeeds so does the second, with a related result. -/
def Follows {α β : Type} (R : α → β → Prop) (x : Except Error α) (y : Except Error β) : Prop :=
  ∀ a, x = .ok a → ∃ b, y = .ok b ∧ R a b

namespace Follows

variable {α α' β β' : Type} {R : α → α' → Prop} {S : β → β' → Prop}

theorem bind {x : Except Error α} {x' : Except Error α'} {f : α → Except Error β}
    {f' : α' → Except Error β'} (first : Follows R x x')
    (rest : ∀ a a', x = .ok a → R a a' → Follows S (f a) (f' a')) :
    Follows S (x >>= f) (x' >>= f') := by
  intro b ok
  obtain ⟨a, here, onward⟩ := bind_eq_ok.mp ok
  obtain ⟨a', here', related⟩ := first a here
  obtain ⟨b', onward', outcome⟩ := rest a a' here related b onward
  exact ⟨b', bind_eq_ok.mpr ⟨a', here', onward'⟩, outcome⟩

theorem pure {a : α} {a' : α'} (related : R a a') :
    Follows R (Pure.pure a : Except Error α) (Pure.pure a') := by
  rintro b ⟨⟩
  exact ⟨a', rfl, related⟩

theorem refl (x : Except Error α) : Follows Eq x x := fun a ok => ⟨a, ok, rfl⟩

theorem same (x : Except Error Value) : Follows (Value.Converted host) x x :=
  fun v ok => ⟨v, ok, .same v⟩

/-- The same computation on both sides, and what follows it. -/
theorem before (x : Except Error α) {f : α → Except Error β} {f' : α → Except Error β'}
    (rest : ∀ a, Follows S (f a) (f' a)) : Follows S (x >>= f) (x >>= f') :=
  (refl x).bind fun a _ _ same => same ▸ rest a

theorem raise {cause : Cause} {y : Except Error β} {R : α → β → Prop} :
    Follows R (LinearProgram.raise cause) y := by
  rintro a ⟨⟩

/-- Computations with equal results. -/
theorem eq_ok {x y : Except Error α} (follows : Follows Eq x y) {a : α} (ok : x = .ok a) :
    y = .ok a := by
  obtain ⟨_, ok', rfl⟩ := follows a ok
  exact ok'

end Follows

/-! ## Lookups and domains -/

theorem lookup_table_follows (keeps : host.KeepsWords) (words : Entries.HoldWords entries)
    (key : Value) :
    Follows (Value.Converted host) (Value.lookupTable entries key)
      (Value.lookupTable (asArrays host entries) key) := by
  unfold Value.lookupTable
  split
  · rintro v ⟨⟩
  · cases found : entries.get? key with
    | some =>
      obtain ⟨v', found', related⟩ := words.get? keeps found
      rw [found']
      exact .pure related.normalize
    | none =>
      rw [Entries.get?_asArrays, found]
      dsimp only [Option.map_none]
      cases key.str? with
      | some => exact .raise
      | none =>
        cases named : entries.named? key.text with
        | none => exact .raise
        | some =>
          obtain ⟨v', named', related⟩ := words.get? keeps named
          rw [Entries.named?, named']
          exact .pure related.normalize

/-- A step into an array leads to the item of the list. -/
theorem lookup_array_follows {ns : List Int} {view : View} {cells : List Value}
    (words : cells.map Value.normalize = ns.map Value.int) (key : Value) (dot : Bool) :
    Follows (Value.Converted host) ((Value.list (ns.map Value.int)).lookup host key dot)
      ((Value.foreign view (.list cells) (ns.map Value.int)).lookup host key dot) := by
  have length : ns.length = cells.length := by simpa using (congrArg List.length words).symm
  have item (n : Nat) : ((ns.map Value.int)[n]?).map Value.normalize
      = (cells[n]?).map Value.normalize := by
    rw [← getElem?_map, ← getElem?_map, words, map_map]
    rfl
  simp only [Value.lookup, Value.length?, Value.lookupPosition, length_map, length, Value.item?]
  cases key.position? with
  | none => exact .raise
  | some n =>
    dsimp only
    split
    · rintro v ⟨⟩
    · split
      case h_2 => exact .raise
      case h_1 v found =>
        split at found
        case isTrue => cases found
        case isFalse natural =>
          have same := item n.toNat
          rw [found] at same
          obtain ⟨w, held, isSame⟩ := Option.map_eq_some_iff.mp same.symm
          rw [if_neg natural, held, ← isSame]
          exact .same _

/-- A step into containers that belong together leads to values that do. -/
theorem lookup_follows (keeps : host.KeepsWords) {v v' key key' : Value}
    (container : v.Converted host v') (keys : key.Converted host key') (dot : Bool) :
    Follows (Value.Converted host) (v.lookup host key dot) (v'.lookup host key' dot) := by
  cases keys with
  | same =>
    cases container with
    | same => exact .same _
    | array flat words => exact lookup_array_follows words key dot
    | table words => exact lookup_table_follows keeps words key
  | array | table =>
    -- neither a list nor a table leads anywhere
    intro w found
    unfold Value.lookup at found
    split at found
    · cases found
    · cases found
    · split at found
      · cases found
      · cases dot <;> cases found

/-- Values that belong together are the same domain. -/
theorem domainItems_follows {v v' : Value} (converted : v.Converted host v') (name : String) :
    Follows Eq (domainItems name v) (domainItems name v') := by
  cases converted with
  | same => exact fun items ok => ⟨items, ok, rfl⟩
  | array flat =>
    refine fun items ok => ⟨items, ?_, rfl⟩
    simp only [domainItems, flat, if_true]
    exact ok
  | table =>
    refine fun items ok => ⟨items, ?_, rfl⟩
    rw [domainItems, asArrays_eq_map, map_map]
    exact ok

/-! ## Contexts -/

theorem Scope.get?_map (f : Value → Value) (scope : Scope) (name : String) :
    Scope.get? (scope.map fun entry => (entry.1, f entry.2)) name = (scope.get? name).map f := by
  rw [get?, get?, find?_map, Option.map_map, Option.map_map]
  rfl

/-- Contexts with the same bound names, the one with lists where the other has arrays. -/
structure Context.Converted (host : Host) (c c' : Context) : Prop where
  bindings : c.bindings = c'.bindings
  parameters : ∀ name v, c.parameters.table.get? name = some v →
    ∃ v', c'.parameters.table.get? name = some v' ∧ v.Converted host v'
  before : c.parameters.host = host
  after : c'.parameters.host = host

namespace Context.Converted

variable {c c' : Context}

theorem bind (converted : Converted host c c') (name : String) (value : Value) :
    Converted host (c.bind name value) (c'.bind name value) :=
  { converted with bindings := congrArg (·.put name value) converted.bindings }

theorem resolve (converted : Converted host c c') (name : String) :
    Follows (Value.Converted host) (c.resolve name) (c'.resolve name) := by
  unfold Context.resolve
  rw [← converted.bindings]
  split
  · exact .same _
  · split
    case h_1 v found =>
      obtain ⟨v', found', related⟩ := converted.parameters name v found
      rw [found']
      exact .pure related.normalize
    case h_2 => exact .raise

/-- The parameters of a table before and after its lists are turned into arrays. -/
theorem of_table (bindings : Scope) (keeps : host.KeepsWords) {table : Entries}
    (words : Entries.HoldWords table) :
    Converted host { bindings, parameters := { table := .ofEntries table, host } }
      { bindings, parameters := { table := .ofEntries (asArrays host table), host } } := by
  have each : Scope.ofEntries (asArrays host table)
      = (Scope.ofEntries table).map fun entry => (entry.1, asArray host entry.2) := by
    rw [Scope.ofEntries, Scope.ofEntries, asArrays_eq_map, filterMap_map, map_filterMap]
    refine filterMap_congr fun entry _ => ?_
    rw [Option.map_map]
    rfl
  refine ⟨rfl, fun name v found => ⟨asArray host v, ?_, ?_⟩, rfl, rfl⟩
  · show Scope.get? (Scope.ofEntries (asArrays host table)) name = _
    rw [each, Scope.get?_map, found]
    rfl
  · obtain ⟨entry, known, rfl⟩ := Option.map_eq_some_iff.mp found
    obtain ⟨source, mem, text⟩ := mem_filterMap.mp (mem_of_find?_eq_some known)
    obtain ⟨_, -, rfl⟩ := Option.map_eq_some_iff.mp text
    exact (Entries.holdWords_iff.mp words source mem).converted keeps

end Context.Converted

/-! ## What an evaluation compares -/

/-- A tree has a value that counts as the truth value `b`. -/
def Expr.HasTruth (e : Expr) (c : Context) (b : Bool) : Prop :=
  ∃ v, e.evaluate c = .ok v ∧ requireTruth e v = .ok b

mutual

/-- Every comparison that an evaluation comes to is between numbers and texts. What it does not
reach does not count, such as the operands behind the first false one of an `and`. -/
def Expr.ComparesScalars : Expr → Context → Prop
  | .compare _ l r, c => l.ComparesScalars c ∧ r.ComparesScalars c
      ∧ ∀ v w, l.evaluate c = .ok v → r.evaluate c = .ok w → v.IsScalar ∧ w.IsScalar
  | .lookup l r _, c | .arith _ l r, c | .range l r, c => l.ComparesScalars c ∧ r.ComparesScalars c
  | .negate t, c | .abs t, c | .piecewise t _ _ _, c => t.ComparesScalars c
  | .ifThenElse t l r, c => t.ComparesScalars c
      ∧ (t.HasTruth c true → l.ComparesScalars c) ∧ (t.HasTruth c false → r.ComparesScalars c)
  | .aggregate .and args, c => OperandsCompareScalars (·.HasTruth c true) args c
  | .aggregate .or args, c => OperandsCompareScalars (·.HasTruth c false) args c
  | .sum args, c | .aggregate _ args, c => OperandsCompareScalars (fun _ => True) args c
  | .sumOver body items, c => ItemsCompareScalars items c
      ∧ ∀ d ∈ (bindings items c).items, body.ComparesScalars d
  | _, _ => True

/-- The operands up to the first one after which an evaluation does not go on. -/
def OperandsCompareScalars (goesOn : Expr → Prop) : List Expr → Context → Prop
  | [], _ => True
  | t :: rest, c => t.ComparesScalars c ∧ (goesOn t → OperandsCompareScalars goesOn rest c)

/-- The domains and filters of a sum, under the contexts that those before them lead to. -/
def ItemsCompareScalars : List GeneratorItem → Context → Prop
  | [], _ => True
  | .filter cond :: rest, c => cond.ComparesScalars c
      ∧ (cond.evaluate c = .ok (.bool true) → ItemsCompareScalars rest c)
  | .generator name domain :: rest, c => domain.ComparesScalars c
      ∧ ∀ values, domain.domainValues name c = .ok values →
        ∀ v ∈ values, ItemsCompareScalars rest (c.bind name v)

def Datum.ComparesScalars : Datum → Context → Prop
  | .data _, _ => True
  | .tree t, c => t.ComparesScalars c

end

/-! ## Evaluation -/

/-- A tree whose values under two contexts belong together, if it has one under the first. -/
abbrev Expr.Persists (host : Host) (e : Expr) (c c' : Context) : Prop :=
  Follows (Value.Converted host) (e.evaluate c) (e.evaluate c')

namespace Follows

variable {β β' : Type} {S : β → β' → Prop} {e : Expr} {c c' : Context}

/-- A number is the same number on both sides. -/
theorem number {f : Number → Except Error β} {f' : Number → Except Error β'}
    (value : e.Persists host c c') (rest : ∀ x, Follows S (f x) (f' x)) :
    Follows S (e.evaluate c >>= fun v => requireNumber e v >>= f)
      (e.evaluate c' >>= fun v => requireNumber e v >>= f') := by
  refine value.bind fun v v' _ related => ?_
  cases v with
  | number x =>
    cases related
    exact rest x
  | _ => exact .raise

theorem truth {f : Bool → Except Error β} {f' : Bool → Except Error β'}
    (value : e.Persists host c c') (rest : ∀ b, e.HasTruth c b → Follows S (f b) (f' b)) :
    Follows S (e.evaluate c >>= fun v => requireTruth e v >>= f)
      (e.evaluate c' >>= fun v => requireTruth e v >>= f') := by
  refine value.bind fun v v' ok related => ?_
  cases v with
  | number =>
    cases related
    exact (refl _).bind fun b _ asked same => same ▸ rest b ⟨_, ok, asked⟩
  | _ => exact .raise

theorem keyValue {key : Expr} (bound : c.bindings = c'.bindings)
    (value : key.Persists host c c') (dot : Bool) :
    Follows (Value.Converted host) (key.keyValue dot c) (key.keyValue dot c') := by
  cases key with
  | symbol =>
    unfold Expr.keyValue
    rw [bound]
    exact .same _
  | wildcard => exact .raise
  | _ => exact value

end Follows

/-- What follows for the operands of a node, one after the other, as far as an evaluation goes. -/
theorem operands_follow {args : List Expr} {c c' : Context} {goesOn : Expr → Prop}
    {P : List Expr → Prop} (nil : P [])
    (cons : ∀ t rest, t.Persists host c c' → (goesOn t → P rest) → P (t :: rest))
    (each : ∀ t ∈ args, t.ComparesScalars c → t.Persists host c c')
    (compares : OperandsCompareScalars goesOn args c) : P args := by
  induction args with
  | nil => exact nil
  | cons t rest ih =>
    rw [forall_mem_cons] at each
    exact cons t rest (each.1 compares.1) fun more => ih each.2 (compares.2 more)

section Bindings

variable {c c' : Context}

theorem filterVerdict_follows {cond : Expr}
    (value : cond.Persists host c c') :
    Follows Eq (filterVerdict cond (cond.evaluate c)) (filterVerdict cond (cond.evaluate c')) := by
  intro b verdict
  obtain ⟨v', ok', related⟩ := value _ (filterVerdict_eq_ok.mp verdict)
  cases related
  exact ⟨b, filterVerdict_eq_ok.mpr ok', rfl⟩

theorem domainValues_follows {domain : Datum} {name : String}
    (value : ∀ t, domain = .tree t → t.Persists host c c') :
    Follows Eq (domain.domainValues name c) (domain.domainValues name c') := by
  cases domain with
  | data => exact .refl _
  | tree t =>
    rw [Datum.domainValues, Datum.domainValues]
    split
    · exact (value t rfl).bind fun v v' _ related => domainItems_follows related name
    · exact .raise

/-- A binding list that is gone through leads to contexts that belong together, one by one. -/
theorem bindings_follow {items : List GeneratorItem} (converted : c.Converted host c')
    (each : ∀ t ∈ items.flatMap GeneratorItem.children, ∀ {d d' : Context}, d.Converted host d' →
      t.ComparesScalars d → t.Persists host d d')
    (compares : ItemsCompareScalars items c) (complete : (bindings items c).stop = none) :
    (bindings items c').stop = none
      ∧ Forall₂ (Context.Converted host) (bindings items c).items
        (bindings items c').items := by
  induction items generalizing c c' with
  | nil => exact ⟨rfl, .cons converted .nil⟩
  | cons item _ ih =>
    rw [flatMap_cons, forall_mem_append] at each
    cases item with
    | filter cond =>
      have value := each.1 cond mem_cons_self converted compares.1
      rw [bindings] at complete ⊢
      rw [bindings]
      cases verdict : filterVerdict cond (cond.evaluate c) with
      | error =>
        rw [verdict] at complete
        cases complete
      | ok b =>
        rw [verdict] at complete
        rw [(filterVerdict_follows value).eq_ok verdict]
        cases b with
        | false => exact ⟨rfl, .nil⟩
        | true =>
          exact ih converted each.2 (compares.2 (filterVerdict_eq_ok.mp verdict)) complete
    | generator name domain =>
      obtain ⟨values, listed, onward⟩ := complete_generator complete
      have tree (t : Expr) (isTree : domain = .tree t) : t.Persists host c c' := by
        subst isTree
        exact each.1 t mem_cons_self converted compares.1
      have value : Follows Eq (domain.domainValues name c) (domain.domainValues name c') :=
        domainValues_follows tree
      have reached (v : Value) (mem : v ∈ values) :=
        ih (converted.bind name v) each.2 (compares.2 values listed v mem) (onward v mem)
      rw [bindings, listed] at complete
      rw [bindings, value.eq_ok listed, bindings, listed]
      have complete' := Listing.chain_complete.mpr fun v mem => (reached v mem).1
      refine ⟨complete', ?_⟩
      dsimp only at complete ⊢
      rw [Listing.items_chain complete, Listing.items_chain complete']
      have alongside : Forall₂ (fun v w => v = w ∧ v ∈ values) values values :=
        forall₂_same.mpr fun v mem => ⟨rfl, mem⟩
      refine rel_flatMap alongside ?_
      rintro v _ ⟨rfl, mem⟩
      exact (reached v mem).2

theorem foldlM_follows {α β σ : Type} {R : α → β → Prop} {l : List α} {l' : List β}
    (related : Forall₂ R l l') {f : σ → α → Except Error σ} {f' : σ → β → Except Error σ}
    (step : ∀ b a a', R a a' → Follows Eq (f b a) (f' b a')) (start : σ) :
    Follows Eq (l.foldlM f start) (l'.foldlM f' start) := by
  induction related generalizing start with
  | nil => exact .refl _
  | cons here _ ih =>
    rw [foldlM_cons, foldlM_cons]
    exact (step start _ _ here).bind fun b _ _ same => same ▸ ih b

/-- Folds over listings that are related item by item if the first one is complete. -/
theorem foldM_follows {α β σ : Type} {R : α → β → Prop} {l : Listing α} {l' : Listing β}
    (related : l.stop = none → l'.stop = none ∧ Forall₂ R l.items l'.items)
    {f : σ → α → Except Error σ} {f' : σ → β → Except Error σ}
    (step : ∀ b a a', R a a' → Follows Eq (f b a) (f' b a')) (start : σ) :
    Follows Eq (l.foldM f start) (l'.foldM f' start) := by
  intro total ok
  obtain ⟨complete, folded⟩ := foldM_ok ok
  obtain ⟨complete', each⟩ := related complete
  refine ⟨total, ?_, rfl⟩
  rw [Listing.foldM, (foldlM_follows each step start).eq_ok folded, complete']
  rfl

end Bindings

/-- What belongs together under the contexts stays together in evaluation. -/
theorem evaluate_follows (keeps : host.KeepsWords) (e : Expr) {c c' : Context}
    (converted : c.Converted host c') (compares : e.ComparesScalars c) :
    e.Persists host c c' := by
  induction e using Expr.induction_on_children generalizing c c' with
  | step e ih =>
    have below {t : Expr} (mem : t ∈ e.children) (compares : t.ComparesScalars c) :
        t.Persists host c c' := ih t mem converted compares
    cases e with
    | literal => exact .same _
    | symbol name => exact converted.resolve name
    | lookup _ _ dot =>
      rw [Expr.Persists, Expr.evaluate_lookup, Expr.evaluate_lookup]
      refine (below mem_cons_self compares.1).bind fun v v' _ first => ?_
      have keys := below (by simp [Expr.children]) compares.2
      refine (keys.keyValue converted.bindings dot).bind fun k k' _ second => ?_
      rw [converted.before, converted.after]
      exact lookup_follows keeps first second dot
    | arith op left right | range left right =>
      have second := below (by simp [Expr.children]) compares.2
      exact (below mem_cons_self compares.1).number fun x => second.number fun y => .same _
    | negate t | abs t | piecewise t =>
      exact (below mem_cons_self compares).number fun x => .same _
    | compare =>
      obtain ⟨isLeft, isRight, scalars⟩ := compares
      refine (below mem_cons_self isLeft).bind fun v v' ok first => ?_
      refine (below (by simp [Expr.children]) isRight).bind fun w w' ok' second => ?_
      obtain ⟨scalar, scalar'⟩ := scalars v w ok ok'
      rw [first.eq_of_scalar scalar, second.eq_of_scalar scalar', converted.before, converted.after]
      exact .same _
    | sum args =>
      have total := operands_follow
        (P := fun args => ∀ x, Follows Eq (evaluateSum args c x) (evaluateSum args c' x))
        (fun x => .refl _)
        (fun t rest value more x => value.number fun y => .before _ fun z => more trivial z)
        (fun t => below) compares
      exact (total _).bind fun x _ _ same => same ▸ .same _
    | aggregate op args =>
      cases op with
      | max | min =>
        have numbers := operands_follow
          (P := fun args => Follows Eq (evaluateNumbers args c) (evaluateNumbers args c'))
          (.refl _) (fun t rest value more => value.number fun x =>
            (more trivial).bind fun others _ _ same => same ▸ .refl _) (fun t => below) compares
        exact numbers.bind fun xs _ _ same => same ▸ .same _
      | and =>
        have all := operands_follow
          (P := fun args => Follows Eq (evaluateAll args c) (evaluateAll args c')) (.refl _)
          (fun t rest value more => value.truth fun b known => by
            cases b with
            | false => exact .refl _
            | true => exact more known) (fun t => below) compares
        exact all.bind fun b _ _ same => same ▸ .same _
      | or =>
        have any := operands_follow
          (P := fun args => Follows Eq (evaluateAny args c) (evaluateAny args c')) (.refl _)
          (fun t rest value more => value.truth fun b known => by
            cases b with
            | true => exact .refl _
            | false => exact more known) (fun t => below) compares
        exact any.bind fun b _ _ same => same ▸ .same _
    | ifThenElse =>
      obtain ⟨first, second, third⟩ := compares
      refine (below mem_cons_self first).truth fun b known => ?_
      cases b with
      | true => exact below (by simp [Expr.children]) (second known)
      | false => exact below (by simp [Expr.children]) (third known)
    | sumOver body items =>
      have listed (complete : (bindings items c).stop = none) :=
        bindings_follow converted (fun t mem => ih t (mem_cons_of_mem _ mem)) compares.1 complete
      have total := foldM_follows
        (fun complete => (listed complete).imp_right fun related =>
          (forall₂_and_left _ _).mpr ⟨compares.2, related⟩)
        fun (total : Number) d d' known =>
          (ih body mem_cons_self known.2 known.1).number fun x => .refl (orOverflow (total.add x))
      exact (total _).bind fun x _ _ same => same ▸ .same _
    | each | wildcard | ref => exact .raise

/-- **Arrays in the place of lists keep values.** In a host whose arrays keep integers below `2^63`
in magnitude, if the flat numeric lists of a table hold such integers, a tree whose value under this
table is a number or a text, and whose comparisons on the way are between numbers and texts, has the
same value under the table with arrays in their place. -/
theorem arrays_keep_values {host : Host} (keeps : host.KeepsWords) {table : Entries}
    {bindings : Scope} {e : Expr} {v : Value} (words : Entries.HoldWords table)
    (compares : e.ComparesScalars
      { bindings, parameters := { table := .ofEntries table, host } })
    (evaluates : e.evaluate { bindings, parameters := { table := .ofEntries table, host } } = .ok v)
    (scalar : v.IsScalar) :
    e.evaluate { bindings, parameters := { table := .ofEntries (asArrays host table), host } }
      = .ok v := by
  obtain ⟨v', ok, related⟩ :=
    evaluate_follows keeps e (.of_table bindings keeps words) compares v evaluates
  rw [ok, related.eq_of_scalar scalar]

/-- The amounts that a store has. -/
def stored : Entries := [(.str "store", .table [(.str "amounts", .list [.int 3, .int 5])])]

/-- The amounts below four, added up. -/
def shortAmounts : Expr :=
  .sumOver
    (.ifThenElse (.compare .lt (.symbol "a") (.literal (.int 4))) (.symbol "a") (.literal (.int 0)))
    [.generator "a" (.tree (.lookup (.symbol "store") (.symbol "amounts") true))]

theorem shortAmounts_kept :
    shortAmounts.evaluate { parameters := { table := .ofEntries stored, host := .numeric } }
        = .ok (.int 3)
      ∧ shortAmounts.evaluate
          { parameters := { table := .ofEntries (asArrays .numeric stored), host := .numeric } }
        = .ok (.int 3) := by
  have words : Entries.HoldWords stored :=
    ⟨⟨fun _ => ⟨[3, 5], rfl, by decide⟩, trivial⟩, trivial⟩
  have compares : shortAmounts.ComparesScalars
      { parameters := { table := .ofEntries stored, host := .numeric } } := by
    refine ⟨⟨⟨trivial, trivial⟩, fun _ _ _ _ => trivial⟩, ?_⟩
    show ∀ d ∈ [Context.bind _ "a" (.int 3), Context.bind _ "a" (.int 5)], _
    simp only [forall_mem_cons]
    refine ⟨⟨⟨trivial, trivial, ?_⟩, fun _ => trivial, fun _ => trivial⟩,
      ⟨⟨trivial, trivial, ?_⟩, fun _ => trivial, fun _ => trivial⟩, forall_mem_nil _⟩ <;>
    · rintro v w ⟨⟩ ⟨⟩
      exact ⟨trivial, trivial⟩
  exact ⟨rfl, arrays_keep_values numeric_keepsWords words compares rfl trivial⟩

end LinearProgram
