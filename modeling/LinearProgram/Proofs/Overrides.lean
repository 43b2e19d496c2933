import LinearProgram.Parameters
import LinearProgram.Proofs.InPlace
import LinearProgram.Proofs.Run
import Mathlib

/-!
# What overrides change and what they leave

An override writes one place of a nested table, and `Parameters.follow` reads it
(`overrides_obey_laws`), up to the order of keys (`Value.SameContent`). `Assigns` says what one
override does to a value; on data nothing of which is held twice, a change in place does the same
(`assign_assigns`).
-/

namespace LinearProgram

open List

variable {overrides : List (String × Value)} {entries entries' : Entries} {path : List String}
  {v v' v'' result : Value} {items items' : List Value} {name : String} {entry : String × Value}

/-! ## Tables -/

namespace Value

theorem equal_str {s : String} : v.equal (.str s) = true ↔ v = .str s := by
  cases v <;> simp [equal]

theorem str_equal {s : String} : (Value.str s).equal v = true ↔ .str s = v := by
  cases v <;> simp [equal]

end Value

namespace Entries

/-- The keys of a table, in any order. -/
def keys (entries : Entries) : Multiset Value := .ofList (entries.map Prod.fst)

theorem get?_put (entries : Entries) (name : String) (value key : Value) :
    (entries.put (.str name) value).get? key
      = if (Value.str name).equal key then some value else entries.get? key := by
  induction entries with
  | nil => by_cases same : (Value.str name).equal key = true <;> simp [put, get?, same]
  | cons entry _ hyp =>
    unfold get? at hyp ⊢
    by_cases here : entry.1.equal (.str name) = true
    · rw [put, if_pos here]
      by_cases same : (Value.str name).equal key = true <;> simp [Value.equal_str.1 here, same]
    · by_cases found : entry.1.equal key = true
      · have other : (Value.str name).equal key = false := by
          refine Bool.eq_false_iff.2 fun same => here ?_
          rwa [Value.str_equal.1 same]
        simp [put, here, found, other]
      · simp [put, here, found, hyp]

theorem named?_put (entries : Entries) (name other : String) (value : Value) :
    (entries.put (.str name) value).named? other
      = if other = name then some value else entries.named? other := by
  rw [named?, get?_put, Value.equal]
  simp [named?, eq_comm (a := name)]

/-- What is put under a name replaces what was put there before. -/
theorem put_put (entries : Entries) (name : String) (before value : Value) :
    (entries.put (.str name) before).put (.str name) value = entries.put (.str name) value := by
  induction entries with
  | nil => simp [put, Value.equal]
  | cons entry _ hyp =>
    by_cases same : entry.1.equal (.str name) = true
    · simp [put, same]
    · simp [put, same, hyp]

/-- A name is a new key exactly if nothing stands under it. -/
theorem keys_put (entries : Entries) (name : String) (value : Value) :
    (entries.put (.str name) value).keys
      = if (entries.named? name).isSome then entries.keys else .str name ::ₘ entries.keys := by
  induction entries with
  | nil => simp [put, keys, named?, get?]
  | cons entry _ hyp =>
    unfold named? get? keys at hyp ⊢
    by_cases same : entry.1.equal (.str name) = true
    · simp [put, same]
    · simp only [put, same, Bool.false_eq_true, if_false, map_cons, ← Multiset.cons_coe, hyp,
        find?_cons]
      split
      · rfl
      · exact Multiset.cons_swap _ _ _

end Entries

/-! ## The same content -/

namespace Value

/-- What a value shows of itself: a table its keys in any order, a list its length. -/
inductive Face
  | table (keys : Multiset Value)
  | list (length : Nat)
  | other (v : Value)

def face : Value → Face
  | table entries => .table (Entries.keys entries)
  | list items => .list items.length
  | v => .other v

/-- What stands under a key of a table or at a position of a list. -/
def inner? : Value ⊕ Nat → Value → Option Value
  | .inl key, table entries => Entries.get? entries key
  | .inr n, list items => items[n]?
  | _, _ => none

/-- What shows itself at the end of a way into a value. -/
def seenAt : List (Value ⊕ Nat) → Value → Option Face
  | [], v => some v.face
  | step :: rest, v => (v.inner? step).bind (seenAt rest)

/-- Values that differ in the order of the keys of their tables only: all ways into them lead to
the same. -/
def SameContent (v v' : Value) : Prop := ∀ way, v.seenAt way = v'.seenAt way

namespace SameContent

theorem refl (v : Value) : SameContent v v := fun _ => rfl

theorem trans (first : SameContent v v') (second : SameContent v' v'') : SameContent v v'' :=
  fun way => (first way).trans (second way)

theorem inner (same : SameContent v v') (step : Value ⊕ Nat) :
    Option.Rel SameContent (v.inner? step) (v'.inner? step) := by
  have onward (way : List (Value ⊕ Nat)) := same (step :: way)
  simp only [seenAt] at onward
  cases here : v.inner? step <;> cases there : v'.inner? step <;> rw [here, there] at onward
  · exact .none
  · cases onward []
  · cases onward []
  · exact .some onward

theorem exists_of_table (same : SameContent (table entries) v) :
    ∃ entries', v = table entries' ∧ Entries.keys entries = Entries.keys entries' := by
  have shown := same []
  cases v with
  | table entries' => exact ⟨entries', rfl, by simpa [seenAt, face] using shown⟩
  | _ => simp [seenAt, face] at shown

theorem exists_of_list (same : SameContent (list items) v) :
    ∃ items', v = list items' ∧ items.length = items'.length := by
  have shown := same []
  cases v with
  | list items' => exact ⟨items', rfl, by simpa [seenAt, face] using shown⟩
  | _ => simp [seenAt, face] at shown

theorem named?_alike (same : SameContent (table entries) (table entries')) (name : String) :
    (entries.named? name).isSome = (entries'.named? name).isSome
      ∧ SameContent ((entries.named? name).getD (table []))
        ((entries'.named? name).getD (table [])) := by
  have inner : Option.Rel SameContent (entries.named? name) (entries'.named? name) :=
    same.inner (.inl (.str name))
  revert inner
  cases entries.named? name <;> cases entries'.named? name <;> rintro ⟨⟩
  · exact ⟨rfl, .refl _⟩
  · exact ⟨rfl, ‹_›⟩

/-- Values with the same content under the same name keep the content of tables the same. -/
theorem put (same : SameContent (table entries) (table entries')) (alike : SameContent v v') :
    SameContent (table (entries.put (.str name) v)) (table (entries'.put (.str name) v')) := by
  intro way
  match way with
  | [] =>
    obtain ⟨_, ⟨⟩, keys⟩ := same.exists_of_table
    simp only [seenAt, face, Entries.keys_put, keys, (same.named?_alike name).1]
  | .inr _ :: _ => rfl
  | .inl key :: rest =>
    simp only [seenAt, inner?, Entries.get?_put]
    split
    · exact alike rest
    · exact same (.inl key :: rest)

/-- What is put under two names can be put in either order. -/
theorem put_comm {other : String} (ne : other ≠ name) (entries : Entries) (v w : Value) :
    SameContent (table ((entries.put (.str name) v).put (.str other) w))
      (table ((entries.put (.str other) w).put (.str name) v)) := by
  intro way
  match way with
  | [] =>
    simp only [seenAt, face, Entries.keys_put, Entries.named?_put, if_neg ne, if_neg ne.symm]
    split <;> split <;> simp only [Multiset.cons_swap]
  | .inr _ :: _ => rfl
  | .inl key :: rest =>
    simp only [seenAt, inner?, Entries.get?_put]
    by_cases here : (Value.str other).equal key = true
    · have apart : (Value.str name).equal key = false := by
        rw [← Value.str_equal.1 here]
        simpa [Value.equal] using ne.symm
      simp [here, apart]
    · simp [here]

/-- Values with the same content at the same position keep the content of lists the same. -/
theorem set {n : Nat} (same : SameContent (list items) (list items')) (alike : SameContent v v') :
    SameContent (list (items.set n v)) (list (items'.set n v')) := by
  obtain ⟨_, ⟨⟩, length⟩ := same.exists_of_list
  intro way
  match way with
  | [] => simp [seenAt, face, length]
  | .inl _ :: _ => rfl
  | .inr m :: rest =>
    have onward := same (.inr m :: rest)
    simp only [seenAt, inner?, getElem?_set, length] at onward ⊢
    split
    · split
      · exact alike rest
      · rfl
    · exact onward

end SameContent

end Value

/-! ## Paths -/

namespace Parameters

/-- The position that a segment stands for, if it is written in digits that have a value. -/
def place? (part : String) : Option Nat :=
  if isPosition part then Digit.natural? part.toList else none

/-- What a path leads to. -/
def follow : List String → Value → Option Value
  | [], value => some value
  | part :: rest, .table entries => (Entries.named? entries part).bind (follow rest)
  | part :: rest, .list items => (place? part).bind fun n => items[n]?.bind (follow rest)
  | _ :: _, _ => none

/-- Paths that part: their first different segments are not two spellings of one position. -/
inductive Diverge : List String → List String → Prop
  | here {a b : String} {path path' : List String} (ne : a ≠ b)
      (apart : ¬∃ n, place? a = some n ∧ place? b = some n) : Diverge (a :: path) (b :: path')
  | deeper {a : String} {path path' : List String} (below : Diverge path path') :
      Diverge (a :: path) (a :: path')

theorem Diverge.symm {path' : List String} (diverge : Diverge path path') : Diverge path' path := by
  induction diverge with
  | here ne apart => exact .here ne.symm fun ⟨n, at_b, at_a⟩ => apart ⟨n, at_a, at_b⟩
  | deeper _ hyp => exact .deeper hyp

/-- A segment that is no position diverges from every other one. -/
theorem Diverge.of_name {a b : String} (ne : a ≠ b) (name : place? a = none)
    (path path' : List String) : Diverge (a :: path) (b :: path') :=
  .here ne fun ⟨n, at_a, _⟩ => by simp [name] at at_a

/-- What replacing the value at the end of a path does to a value. -/
inductive Assigns (new : Value) : List String → Value → Value → Prop
  | done (old : Value) : Assigns new [] old new
  | entry {part : String} {rest : List String} {entries : Entries} {changed : Value}
      (below : Assigns new rest ((entries.named? part).getD (.table [])) changed) :
      Assigns new (part :: rest) (.table entries) (.table (entries.put (.str part) changed))
  | item {part : String} {rest : List String} {items : List Value} {n : Nat}
      {inner changed : Value} (place : place? part = some n) (at_n : items[n]? = some inner)
      (below : Assigns new rest inner changed) :
      Assigns new (part :: rest) (.list items) (.list (items.set n changed))

namespace Assigns

variable {new result : Value} {part : String} {rest : List String}

theorem nil_iff {old : Value} : Assigns new [] old result ↔ new = result :=
  ⟨fun | .done _ => rfl, fun same => same ▸ .done old⟩

theorem table_iff :
    Assigns new (part :: rest) (.table entries) result
      ↔ ∃ changed, Assigns new rest ((entries.named? part).getD (.table [])) changed
          ∧ .table (entries.put (.str part) changed) = result :=
  ⟨fun | .entry below => ⟨_, below, rfl⟩, fun ⟨_, below, same⟩ => same ▸ .entry below⟩

theorem list_iff :
    Assigns new (part :: rest) (.list items) result
      ↔ ∃ n inner changed, place? part = some n ∧ items[n]? = some inner
          ∧ Assigns new rest inner changed ∧ .list (items.set n changed) = result :=
  ⟨fun | .item place at_n below => ⟨_, _, _, place, at_n, below, rfl⟩,
    fun ⟨_, _, _, place, at_n, below, same⟩ => same ▸ .item place at_n below⟩

/-- A path leads on through tables and lists only. -/
theorem not_atom {old : Value} (atom : old.isAtom = true) :
    ¬Assigns new (part :: rest) old result := by
  rintro ⟨⟩ <;> cases atom

end Assigns

/-- The outcome of an override is determined. -/
theorem Assigns.unique {new old result result' : Value} (assigns : Assigns new path old result)
    (assigns' : Assigns new path old result') : result = result' := by
  induction assigns generalizing result' with
  | done => exact nil_iff.mp assigns'
  | entry _ ih =>
    obtain ⟨changed', below', rfl⟩ := table_iff.mp assigns'
    rw [ih below']
  | item place at_n _ ih =>
    obtain ⟨_, _, _, place', at_n', below', rfl⟩ := list_iff.mp assigns'
    cases place.symm.trans place'
    cases at_n.symm.trans at_n'
    rw [ih below']

/-! ## One override -/

/-- An override is found under its path. -/
theorem Assigns.follow_self {new old : Value} (assigns : Assigns new path old result) :
    follow path result = some new := by
  induction assigns with
  | done => rfl
  | entry _ hyp => simp [follow, Entries.named?_put, hyp]
  | item place at_n _ hyp =>
    have inside := (List.getElem?_eq_some_iff.1 at_n).1
    simp [follow, place, inside, hyp]

/-- In a table that was created on the way, a path that diverges leads nowhere. -/
theorem Diverge.follow_empty {path' : List String} (diverge : Diverge path path') :
    follow path (.table []) = none := by
  cases diverge <;> rfl

/-- An override changes nothing on a path that diverges from its own. -/
theorem Diverge.follow_eq {path' : List String} (diverge : Diverge path path')
    {new old result : Value} (assigns : Assigns new path' old result) :
    follow path result = follow path old := by
  induction diverge generalizing old result with
  | @here a b path path' ne apart =>
    cases assigns with
    | entry => simp [follow, Entries.named?_put, ne]
    | @item _ _ items n _ _ place _ _ =>
      have elsewhere (m : Nat) (at_a : place? a = some m) : n ≠ m :=
        fun same => apart ⟨m, at_a, same ▸ place⟩
      cases at_a : place? a with
      | none => simp [follow, at_a]
      | some m => simp [follow, at_a, getElem?_set_ne (elsewhere m at_a)]
  | @deeper a path path' below hyp =>
    cases assigns with
    | @entry _ _ entries _ inner =>
      have kept := hyp inner
      cases stands : entries.named? a with
      | none => simpa [follow, Entries.named?_put, stands, below.follow_empty] using kept
      | some => simpa [follow, Entries.named?_put, stands] using kept
    | @item _ _ items n _ _ place at_n inner =>
      obtain ⟨inside, rfl⟩ := List.getElem?_eq_some_iff.1 at_n
      simp [follow, place, inside, hyp inner]

/-- An override does the same to values with the same content. -/
theorem Assigns.congr {new old : Value} (assigns : Assigns new path old result) {old' : Value}
    (same : old.SameContent old') :
    ∃ result', Assigns new path old' result' ∧ result.SameContent result' := by
  induction assigns generalizing old' with
  | done => exact ⟨new, .done old', .refl new⟩
  | @entry part rest entries changed below hyp =>
    obtain ⟨entries', rfl, -⟩ := same.exists_of_table
    obtain ⟨changed', below', alike⟩ := hyp (same.named?_alike part).2
    exact ⟨_, .entry below', same.put alike⟩
  | @item part rest items n inner changed place at_n below hyp =>
    obtain ⟨items', rfl, -⟩ := same.exists_of_list
    have inside : Option.Rel Value.SameContent items[n]? items'[n]? := same.inner (.inr n)
    rw [at_n] at inside
    generalize at_n' : items'[n]? = inner' at inside
    cases inside with
    | some inside =>
      obtain ⟨changed', below', alike⟩ := hyp inside
      exact ⟨_, .item place at_n' below', same.set alike⟩

/-- Overrides on diverging paths can be exchanged. -/
theorem Diverge.exchange {path' : List String} (diverge : Diverge path path')
    {new new' old between result : Value} (first : Assigns new path old between)
    (second : Assigns new' path' between result) :
    ∃ between' result', Assigns new' path' old between' ∧ Assigns new path between' result'
      ∧ result.SameContent result' := by
  induction diverge generalizing old between result with
  | @here a b path path' ne apart =>
    cases first with
    | @entry _ _ entries changed below =>
      obtain ⟨changed', below', rfl⟩ := Assigns.table_iff.1 second
      rw [Entries.named?_put, if_neg ne.symm] at below'
      refine ⟨_, _, .entry below', .entry ?_, .put_comm ne.symm entries changed changed'⟩
      rwa [Entries.named?_put, if_neg ne]
    | @item _ _ items n inner changed place at_n below =>
      obtain ⟨m, inner', changed', place', at_m, below', rfl⟩ := Assigns.list_iff.1 second
      have elsewhere : n ≠ m := fun same => apart ⟨n, place, same ▸ place'⟩
      rw [getElem?_set_ne elsewhere] at at_m
      refine ⟨_, _, .item place' at_m below', .item place ?_ below, ?_⟩
      · rwa [getElem?_set_ne elsewhere.symm]
      · rw [set_comm _ _ elsewhere]
        exact .refl _
  | @deeper a path path' _ hyp =>
    cases first with
    | @entry _ _ entries changed below =>
      obtain ⟨changed', below', rfl⟩ := Assigns.table_iff.1 second
      rw [Entries.named?_put, if_pos rfl] at below'
      obtain ⟨between', result', below'', onward, alike⟩ := hyp below below'
      have onward' : Assigns new path
          (((entries.put (.str a) between').named? a).getD (.table [])) result' := by
        rwa [Entries.named?_put, if_pos rfl]
      refine ⟨_, _, .entry below'', .entry onward', ?_⟩
      rw [Entries.put_put, Entries.put_put]
      exact .put (.refl _) alike
    | @item _ _ items n inner changed place at_n below =>
      obtain ⟨m, inner', changed', place', at_m, below', rfl⟩ := Assigns.list_iff.1 second
      cases place.symm.trans place'
      have inside := (List.getElem?_eq_some_iff.1 at_n).1
      rw [getElem?_set_self inside] at at_m
      cases at_m
      obtain ⟨between', result', below'', onward, alike⟩ := hyp below below'
      refine ⟨_, _, .item place at_n below'', .item place ?_ onward, ?_⟩
      · exact getElem?_set_self inside
      · rw [set_set, set_set]
        exact .set (.refl _) alike

/-! ## All overrides -/

/-- The path of an override. -/
def segments (entry : String × Value) : List String := entry.1.splitOn "."

/-- What overrides, one after the other, do to a value. -/
def AssignsAll : List (String × Value) → Value → Value → Prop
  | [], base, result => base = result
  | entry :: rest, base, result =>
    ∃ table, Assigns entry.2 (segments entry) base table ∧ AssignsAll rest table result

/-- The last override is found under its path, whatever came before it. -/
theorem follow_last (last : overrides.getLast? = some entry) {base result : Value}
    (applied : AssignsAll overrides base result) :
    follow (segments entry) result = some entry.2 := by
  induction overrides generalizing base with
  | nil => cases last
  | cons _ rest hyp =>
    obtain ⟨table, assigns, onward⟩ := applied
    cases rest with
    | nil =>
      cases last
      cases onward
      exact assigns.follow_self
    | cons => exact hyp (by simpa using last) onward

theorem follow_of_diverge (diverge : ∀ entry ∈ overrides, Diverge path (segments entry))
    {base result : Value} (applied : AssignsAll overrides base result) :
    follow path result = follow path base := by
  induction overrides generalizing base with
  | nil => cases applied; rfl
  | cons _ _ hyp =>
    obtain ⟨table, assigns, onward⟩ := applied
    rw [forall_mem_cons] at diverge
    rw [hyp diverge.2 onward, diverge.1.follow_eq assigns]

theorem assignsAll_congr {base base' : Value}
    (applied : AssignsAll overrides base result) (same : base.SameContent base') :
    ∃ result', AssignsAll overrides base' result' ∧ result.SameContent result' := by
  induction overrides generalizing base base' with
  | nil => cases applied; exact ⟨base', rfl, same⟩
  | cons _ _ hyp =>
    obtain ⟨table, assigns, onward⟩ := applied
    obtain ⟨table', assigns', alike⟩ := assigns.congr same
    obtain ⟨result', onward', outcome⟩ := hyp onward alike
    exact ⟨result', ⟨table', assigns', onward'⟩, outcome⟩

/-- Overrides on diverging paths can be applied in any order. -/
theorem assignsAll_perm {other : List (String × Value)} (perm : overrides.Perm other)
    (diverge : overrides.Pairwise fun entry entry' => Diverge (segments entry) (segments entry'))
    {base result : Value} (applied : AssignsAll overrides base result) :
    ∃ result', AssignsAll other base result' ∧ result.SameContent result' := by
  induction perm generalizing base result with
  | nil => exact ⟨result, applied, .refl result⟩
  | cons _ _ hyp =>
    obtain ⟨table, assigns, onward⟩ := applied
    obtain ⟨result', onward', same⟩ := hyp diverge.of_cons onward
    exact ⟨result', ⟨table, assigns, onward'⟩, same⟩
  | swap =>
    obtain ⟨table, assigns, onward⟩ := applied
    obtain ⟨table', assigns', onward'⟩ := onward
    have parted := rel_of_pairwise_cons diverge mem_cons_self
    obtain ⟨between, table'', early, late, alike⟩ := parted.exchange assigns assigns'
    obtain ⟨result', onward'', same⟩ := assignsAll_congr onward' alike
    exact ⟨result', ⟨between, early, table'', late, onward''⟩, same⟩
  | trans perm _ hyp hyp' =>
    obtain ⟨middle, applied', same⟩ := hyp diverge applied
    obtain ⟨result', applied'', same'⟩ :=
      hyp' ((perm.pairwise_iff fun parted => parted.symm).1 diverge) applied'
    exact ⟨result', applied'', same.trans same'⟩

/-! ## In place -/

section InPlace

open Object

variable {path part : String} {rest : List String} {new here root root' : Object}
  {parts : List (Value × Object)} {isTable isLast : Bool} {id n : Nat} {avoid : List Nat}
  {hole : Object → Object}

theorem position_eq_ok {part : String} {n : Nat} :
    position part = .ok n ↔ Digit.natural? part.toList = some n := by
  unfold position
  split <;> simp_all

theorem locate_table :
    locate path part isLast true parts = .ok n
      ↔ n = parts.findIdx fun entry => entry.1.equal (.str part) := by
  simp [locate, pure, Except.pure, eq_comm]

theorem locate_list :
    locate path part isLast false parts = .ok n ↔ place? part = some n ∧ n < parts.length := by
  unfold locate place?
  by_cases digits : isPosition part = true
  · simp only [digits, Bool.false_eq_true, if_false, if_true, bind_eq_ok, position_eq_ok]
    constructor
    · rintro ⟨m, isPlace, found⟩
      split at found
      case isTrue inside =>
        cases found
        exact ⟨isPlace, inside⟩
      case isFalse => cases found
    · rintro ⟨isPlace, inside⟩
      exact ⟨n, isPlace, by rw [if_pos inside]; rfl⟩
  · simp [digits, refuse]

/-- What stands at a place, or a table that is made there. -/
def heldAt (n : Nat) (parts : List (Value × Object)) : Value :=
  ((parts[n]?).map (·.2.content)).getD (.table [])

/-- A change of the part that a segment leads to. -/
theorem assigns_node (located : locate path part isLast isTable parts = .ok n) {w : Value}
    {x : Object} (below : Assigns w rest (heldAt n parts) x.content) :
    Assigns w (part :: rest) (node id isTable parts).content
      (node id isTable (setAt (.str part) x n parts)).content := by
  unfold heldAt at below
  cases isTable with
  | true =>
    cases locate_table.mp located
    rw [content, content, contents_setAt]
    rw [← get?_contents] at below
    exact .entry below
  | false =>
    obtain ⟨place, inside⟩ := locate_list.mp located
    rw [content, content, items_setAt inside, contents_eq]
    rw [getElem?_eq_getElem inside] at below
    exact .item place (by simp [inside]) below

/-- A path that leads on from a table or a list leads to one of its parts. -/
theorem locate_of_assigns (path : String) (isLast : Bool) {w v : Value}
    (assigns : Assigns w (part :: rest) (node id isTable parts).content v) :
    ∃ n changed, locate path part isLast isTable parts = .ok n
      ∧ Assigns w rest (heldAt n parts) changed := by
  unfold heldAt
  cases isTable with
  | true =>
    obtain ⟨changed, below, -⟩ := Assigns.table_iff.mp assigns
    rw [Entries.named?, get?_contents] at below
    exact ⟨_, changed, locate_table.mpr rfl, below⟩
  | false =>
    obtain ⟨n, inner, changed, place, at_n, below, -⟩ := Assigns.list_iff.mp assigns
    rw [contents_eq, map_map, getElem?_map, Option.map_eq_some_iff] at at_n
    obtain ⟨entry, found, rfl⟩ := at_n
    have inside := (List.getElem?_eq_some_iff.mp found).1
    exact ⟨n, changed, locate_list.mpr ⟨place, inside⟩, by rw [found]; exact below⟩

/-- Data nothing of which is held twice are changed in one place, as a value is. -/
theorem assign_assigns {segments : List String} (nonempty : segments ≠ []) {next : Nat}
    (surrounds : Surrounds avoid hole) (apart : Apart next (here.labels ++ new.labels ++ avoid))
    (ran : assign path new segments next here (hole here) = .ok root') :
    ∃ here', root' = hole here' ∧ Assigns new.content segments here.content here'.content
      ∧ (here'.labels ++ avoid).Nodup := by
  induction segments generalizing next here avoid hole with
  | nil => exact absurd rfl nonempty
  | cons part rest ih =>
    cases here with
    | plain => cases ran
    | node id isTable parts =>
      rw [assign, bind_eq_ok] at ran
      obtain ⟨n, located, onward⟩ := ran
      obtain ⟨outside, kept⟩ := apart.around (others_sublist n parts)
      -- nothing around the node has its number, so only the node itself is replaced
      have put (x : Object) : Object.replace id (.node id isTable (setAt (.str part) x n parts))
          (hole (.node id isTable parts))
            = hole (.node id isTable (setAt (.str part) x n parts)) := by
        rw [surrounds id outside, Object.replace, if_pos rfl]
      have below := surrounds.part id n isTable (.str part) parts
      suffices ∃ x, root' = hole (.node id isTable (setAt (.str part) x n parts))
          ∧ Assigns new.content rest (heldAt n parts) x.content
          ∧ (x.labels ++ (id :: others n parts ++ avoid)).Nodup by
        obtain ⟨x, rfl, assigns, distinct⟩ := this
        exact ⟨_, rfl, assigns_node located assigns, nodup_around (labels_setAt _ _ _ _) distinct⟩
      unfold heldAt
      split at onward
      case isTrue last =>
        cases isEmpty_iff.mp last
        cases onward
        exact ⟨new, put new, .done _, kept.1⟩
      case isFalse longer =>
        have longer : rest ≠ [] := fun last => longer (isEmpty_iff.mpr last)
        split at onward
        case h_1 key inner found =>
          have held := labels_setAt (.str part) inner n parts
          have self : setAt (.str part) inner n parts = parts := setAt_self found
          rw [self] at held
          rw [← self] at onward
          rw [found]
          exact ih longer below (apart.into held) onward
        case h_2 missing =>
          rw [missing]
          dsimp only at onward
          rw [put] at onward
          exact ih longer below kept.cons onward

/-- Whether a path leads on does not depend on what is shared. -/
theorem assign_succeeds {segments : List String} {w : Value}
    (assigns : Assigns new.content segments here.content w) (next : Nat) (root : Object) :
    ∃ root', assign path new segments next here root = .ok root' := by
  induction segments generalizing here next root w with
  | nil => exact ⟨new, rfl⟩
  | cons part rest ih =>
    cases here with
    | plain _ atom => exact absurd assigns (Assigns.not_atom atom)
    | node id isTable parts =>
      obtain ⟨n, changed, located, below⟩ := locate_of_assigns path rest.isEmpty assigns
      unfold heldAt at below
      simp only [assign, bind_eq_ok, located, Except.ok.injEq, exists_eq_left']
      split
      · exact ⟨_, rfl⟩
      · split
        case h_1 key inner found =>
          rw [found] at below
          exact ih below _ _
        case h_2 missing =>
          rw [missing] at below
          exact @ih (.node next true []) _ below _ _

/-- One override of data nothing of which is held twice. -/
theorem override_assigns {entry : String × Value} (unshared : root.Unshared)
    (ran : override root entry.1 entry.2 = .ok root') :
    Assigns entry.2 (segments entry) root.content root'.content ∧ root'.Unshared := by
  obtain ⟨same, k, next, numbers⟩ := label_spec root.free entry.2
  unfold override at ran
  unfold segments
  cases parts : entry.1.splitOn "." with
  | nil =>
    rw [parts] at ran
    cases ran
    rw [same]
    refine ⟨.done _, ?_⟩
    unfold Unshared
    rw [numbers]
    exact nodup_range'
  | cons part rest =>
    have above (id : Nat) (mem : id ∈ root.labels) (new : id ∈ range' root.free k) : False :=
      absurd (root.lt_free mem) (Nat.not_lt.mpr (left_le_of_mem_range' new))
    have apart : Apart (root.free + k) (root.labels ++ range' root.free k ++ []) := by
      rw [append_nil]
      refine ⟨unshared.append nodup_range' above, fun id mem => ?_⟩
      rcases mem_append.mp mem with mem | mem
      · exact Nat.lt_add_right k (root.lt_free mem)
      · exact (mem_range'_1.mp mem).2
    rw [parts] at ran
    rw [← numbers] at apart
    rw [← next] at apart
    obtain ⟨_, rfl, assigns, distinct⟩ :=
      assign_assigns (cons_ne_nil _ _) Surrounds.nothing apart ran
    rw [same] at assigns
    rw [append_nil] at distinct
    exact ⟨assigns, distinct⟩

theorem override_succeeds {entry : String × Value} {w : Value}
    (assigns : Assigns entry.2 (segments entry) root.content w) :
    ∃ root', override root entry.1 entry.2 = .ok root' := by
  rw [← (label_spec root.free entry.2).1] at assigns
  exact assign_succeeds assigns _ _

theorem applyOverrides_assigns {base result : Object} (unshared : base.Unshared)
    (applied : applyOverrides base overrides = .ok result) :
    AssignsAll overrides base.content result.content := by
  induction overrides generalizing base with
  | nil =>
    cases applied
    rfl
  | cons entry rest ih =>
    rw [applyOverrides, foldlM_cons, bind_eq_ok] at applied
    obtain ⟨table, ran, onward⟩ := applied
    obtain ⟨assigns, still⟩ := override_assigns unshared ran
    exact ⟨_, assigns, ih still onward⟩

theorem applyOverrides_succeeds {base : Object} (unshared : base.Unshared)
    (assigns : AssignsAll overrides base.content result) :
    ∃ result', applyOverrides base overrides = .ok result' ∧ result'.content = result := by
  induction overrides generalizing base with
  | nil => exact ⟨base, rfl, assigns⟩
  | cons entry rest ih =>
    obtain ⟨table, first, onward⟩ := assigns
    obtain ⟨root', ran⟩ := override_succeeds first
    obtain ⟨assigns, still⟩ := override_assigns unshared ran
    cases first.unique assigns
    obtain ⟨result', ran', same⟩ := ih still onward
    refine ⟨result', ?_, same⟩
    rw [applyOverrides, foldlM_cons, bind_eq_ok]
    exact ⟨root', ran, ran'⟩

end InPlace

/-- **Overrides obey the laws of reading and writing**, on data nothing of which is held twice.
Where all overrides succeed, the last one is found under its path; a path that diverges from all of
them leads to what it led to before, or nowhere as before; and if they diverge from each other,
every order of them succeeds and gives the same content. -/
theorem overrides_obey_laws {base result : Object} {overrides : List (String × Value)}
    (unshared : base.Unshared) (applied : applyOverrides base overrides = .ok result) :
    (∀ entry, overrides.getLast? = some entry →
        follow (segments entry) result.content = some entry.2)
      ∧ (∀ path, (∀ entry ∈ overrides, Diverge path (segments entry)) →
          follow path result.content = follow path base.content)
      ∧ ((overrides.Pairwise fun entry entry' => Diverge (segments entry) (segments entry')) →
          ∀ other, overrides.Perm other → ∃ result', applyOverrides base other = .ok result'
            ∧ result.content.SameContent result'.content) := by
  have assigns := applyOverrides_assigns unshared applied
  refine ⟨fun _ last => follow_last last assigns, fun _ apart => follow_of_diverge apart assigns,
    fun apart other perm => ?_⟩
  obtain ⟨_, onward, same⟩ := assignsAll_perm perm apart assigns
  obtain ⟨result', applied', rfl⟩ := applyOverrides_succeeds unshared onward
  exact ⟨result', applied', same⟩

/-- A fleet of two lorries with their sizes. -/
def fleet : Value := .table [(.str "s", .list [.int 1, .int 2])]

/-- A new size for the second lorry, and a price, for which there is no table yet. -/
def fleetChanges : List (String × Value) := [("s.01", .int 7), ("p.f", .int 3)]

/-- The fleet after the changes. -/
def changedFleet : Value :=
  .table [(.str "s", .list [.int 1, .int 7]), (.str "p", .table [(.str "f", .int 3)])]

theorem fleet_changed :
    ∃ changed, applyOverrides (.ofValue fleet) fleetChanges = .ok changed
      ∧ changed.content = changedFleet
      ∧ follow ["p", "f"] changedFleet = some (.int 3)
      ∧ follow ["s", "0"] changedFleet = some (.int 1)
      ∧ follow ["p", "0"] changedFleet = none
      ∧ ∃ other, applyOverrides (.ofValue fleet) fleetChanges.reverse = .ok other
          ∧ changedFleet.SameContent other.content := by
  have size : segments ("s.01", .int 7) = ["s", "01"] := by cbv
  have fuel : segments ("p.f", .int 3) = ["p", "f"] := by cbv
  have second : place? "01" = some 1 := by cbv
  have first : place? "0" = some 0 := by cbv
  have sName : place? "s" = none := by cbv
  have fName : place? "f" = none := by cbv
  have unshared := Object.ofValue_unshared fleet
  have content := Object.content_ofValue fleet
  have assigns : AssignsAll fleetChanges (Object.ofValue fleet).content changedFleet := by
    simp only [fleetChanges, AssignsAll, size, fuel, content]
    exact ⟨_, .entry (.item second rfl (.done _)), _, .entry (.entry (.done _)), rfl⟩
  obtain ⟨changed, applied, same⟩ := applyOverrides_succeeds unshared assigns
  obtain ⟨last, frame, order⟩ := overrides_obey_laws unshared applied
  rw [same, content] at frame
  rw [same] at last order
  refine ⟨changed, applied, same, fuel ▸ last _ rfl, (frame ["s", "0"] ?_).trans ?_,
    (frame ["p", "0"] ?_).trans rfl, order ?_ _ (reverse_perm _).symm⟩
  · simp only [fleetChanges, forall_mem_cons, size, fuel]
    exact ⟨.deeper (.here (by decide) (by simp [first, second])), .of_name (by decide) sName _ _,
      forall_mem_nil _⟩
  · simp [follow, fleet, first, Entries.named?, Entries.get?, Value.equal]
  · simp only [fleetChanges, forall_mem_cons, size, fuel]
    exact ⟨.symm (.of_name (by decide) sName _ _), .deeper (.symm (.of_name (by decide) fName _ _)),
      forall_mem_nil _⟩
  · simp only [fleetChanges, pairwise_cons, forall_mem_cons, size, fuel]
    exact ⟨⟨.of_name (by decide) sName _ _, forall_mem_nil _⟩,
      forall_mem_nil _, .nil⟩

/-- Two shifts with one crew, a list that both of them hold. -/
def shifts (size : Int) : Object :=
  let crew : Object := .node 2 false [(.none, .plain (.int size) rfl)]
  .node 0 true [(.str "a", Object.repeated 2 (.node 1 false [(.none, crew)]))]

/-- Where a list is held twice, an override of the one changes the other, on a path that diverges.
-/
theorem shifts_share_crew :
    applyOverrides (shifts 1) [("a.0.0", .int 5)] = .ok (shifts 5)
      ∧ Diverge ["a", "1", "0"] (segments ("a.0.0", .int 5))
      ∧ follow ["a", "1", "0"] (shifts 1).content = some (.int 1)
      ∧ follow ["a", "1", "0"] (shifts 5).content = some (.int 5) := by
  have path : "a.0.0".splitOn "." = ["a", "0", "0"] := by cbv
  have first : place? "0" = some 0 := by cbv
  have second : place? "1" = some 1 := by cbv
  have ran : override (shifts 1) "a.0.0" (.int 5) = .ok (shifts 5) := by
    unfold override
    rw [path]
    refine bind_eq_ok.mpr ⟨0, locate_table.mpr rfl, ?_⟩
    refine bind_eq_ok.mpr ⟨0, locate_list.mpr ⟨first, Nat.zero_lt_succ _⟩, ?_⟩
    exact bind_eq_ok.mpr ⟨0, locate_list.mpr ⟨first, Nat.zero_lt_succ _⟩, rfl⟩
  have crew (size : Int) : follow ["a", "1", "0"] (shifts size).content = some (.int size) := by
    have content : (shifts size).content
        = .table [(.str "a", .list [.list [.int size], .list [.int size]])] := rfl
    simp [content, follow, first, second, Entries.named?, Entries.get?, Value.equal]
  refine ⟨?_, ?_, crew 1, crew 5⟩
  · rw [applyOverrides, foldlM_cons, ran]
    rfl
  · unfold segments
    rw [path]
    exact .deeper (.here (by decide) (by simp [first, second]))

end Parameters

end LinearProgram
