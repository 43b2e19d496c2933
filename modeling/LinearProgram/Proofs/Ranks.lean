import LinearProgram.Proofs.EvaluationParts
import LinearProgram.Proofs.JsonValues

/-!
# Faults and what they explain

`Faults` names the reasons for failures outside the announced kinds, and `Faults.Explain` says which
failures remain if some of them are given. Whether a value can be a key is a matter of depth:
`Value.Within n` allows `n` layers of containers above keys. `Faults.Fits n` is the same up to
faults; the depth stays finite, so that no record ever comes up, and no object of the host that is
not a key.
-/

namespace LinearProgram

open List

variable {v key container : Value} {items : List Value}

/-! ## Depth -/

namespace Value

/-- At most so many layers of sequences and tables, and then values that can be keys. -/
inductive Within : Nat → Value → Prop where
  | key {n : Nat} {v : Value} (isKey : v.isKey = true) : Within n v
  | list {n : Nat} {items : List Value} (all : ∀ item ∈ items, Within n item) :
      Within (n + 1) (.list items)
  | tuple {n : Nat} {items : List Value} (all : ∀ item ∈ items, Within n item) :
      Within (n + 1) (.tuple items)
  | table {n : Nat} {entries : Entries} (keys : ∀ entry ∈ entries, entry.1.isKey = true)
      (values : ∀ entry ∈ entries, Within n entry.2) : Within (n + 1) (.table entries)

theorem Within.mono {m n : Nat} (within : v.Within m) (le : m ≤ n) : v.Within n := by
  induction within generalizing n with
  | key isKey => exact .key isKey
  | list _ ih =>
    obtain ⟨k, rfl⟩ := Nat.exists_eq_add_of_le' le
    exact .list fun item mem => ih item mem (Nat.le_add_left _ k)
  | tuple _ ih =>
    obtain ⟨k, rfl⟩ := Nat.exists_eq_add_of_le' le
    exact .tuple fun item mem => ih item mem (Nat.le_add_left _ k)
  | table keys _ ih =>
    obtain ⟨k, rfl⟩ := Nat.exists_eq_add_of_le' le
    exact .table keys fun entry mem => ih entry mem (Nat.le_add_left _ k)

theorem within_zero : v.Within 0 ↔ v.isKey = true := by
  constructor
  · intro within
    cases within with
    | key isKey => exact isKey
  · exact .key

theorem areKeys_iff : areKeys items = true ↔ ∀ v ∈ items, v.isKey = true := by
  induction items with
  | nil => simp [areKeys]
  | cons _ _ ih => simp [areKeys, ih]

mutual

/-- How many layers of sequences and tables a value has. -/
def rank : Value → Nat
  | list items => 1 + rankItems items
  | tuple items => if areKeys items then 0 else 1 + rankItems items
  | table entries => 1 + rankEntries entries
  | none | number _ | str _ | range _ _ _ | set _ | foreign _ _ _ | cell _ | record _ => 0

def rankItems : List Value → Nat
  | [] => 0
  | item :: rest => max (rank item) (rankItems rest)

def rankEntries : List (Value × Value) → Nat
  | [] => 0
  | (_, value) :: rest => max (rank value) (rankEntries rest)

end

theorem rank_eq_zero (isKey : v.isKey = true) : v.rank = 0 := by
  cases v with
  | tuple =>
    rw [rank]
    exact if_pos isKey
  | list | table => cases isKey
  | none | number | str | range | set | foreign | cell | record => rfl

theorem rank_le_rankItems (mem : v ∈ items) : v.rank ≤ rankItems items := by
  induction items with
  | nil => cases mem
  | cons _ _ ih =>
    rw [rankItems]
    rcases mem_cons.mp mem with rfl | inside
    · exact Nat.le_max_left _ _
    · exact Nat.le_trans (ih inside) (Nat.le_max_right _ _)

theorem rank_le_rankEntries {entries : Entries} {entry : Value × Value} (mem : entry ∈ entries) :
    entry.2.rank ≤ rankEntries entries := by
  induction entries with
  | nil => cases mem
  | cons _ _ ih =>
    rw [rankEntries]
    rcases mem_cons.mp mem with rfl | inside
    · exact Nat.le_max_left _ _
    · exact Nat.le_trans (ih inside) (Nat.le_max_right _ _)

/-- A value whose layers are all sequences and tables. -/
def Layered (v : Value) : Prop := v.Within v.rank

theorem layered_of_isKey (isKey : v.isKey = true) : v.Layered := .key isKey

theorem IsJson.layered (isJson : v.IsJson) : v.Layered := by
  induction isJson with
  | none | number | str => exact .key rfl
  | @list items all ih =>
    rw [Layered, rank, Nat.add_comm]
    exact .list fun item mem => (ih item mem).mono (rank_le_rankItems mem)
  | @table entries keys values ih =>
    rw [Layered, rank, Nat.add_comm]
    refine .table (fun entry mem => ?_) fun entry mem =>
      (ih entry mem).mono (rank_le_rankEntries mem)
    obtain ⟨s, isText⟩ := keys entry mem
    rw [isText]
    rfl

theorem layered_tuple (all : ∀ item ∈ items, item.Layered) : (tuple items).Layered := by
  rw [Layered, rank]
  split
  case isTrue keys => exact .key keys
  case isFalse =>
    rw [Nat.add_comm]
    exact .tuple fun item mem => (all item mem).mono (rank_le_rankItems mem)

end Value

/-! ## Faults -/

/-- Reasons for failures outside the announced kinds. -/
structure Faults where
  /-- A decision variable occurs where a value is needed at once. -/
  openCondition : Prop
  /-- A container holds more wildcards than have values when it is looked at. -/
  nestedWildcard : Prop
  /-- Data of one shape stands where another one is needed. -/
  unsuited : Prop
  /-- The names of the host's attributes, none of which is read. -/
  attributes : List String

namespace Faults

/-- The failures that remain: the announced kinds, those that a fault explains, and numbers or
sequences that are too large. -/
def Explain (faults : Faults) : Error → Prop
  | .refused cause => cause.message?.isSome = true
    ∧ (cause.kind.compileName?.isSome = true
      ∨ (faults.openCondition ∧ ∃ source, cause = .notConstant source))
  | .broken .unsupported => faults.unsuited
  | .broken .outOfRange | .broken .exhausted => faults.nestedWildcard
  | .broken .overflow | .broken .outOfMemory => True
  | .broken _ => False

/-- A value of at most the given depth, or of any finite one if values are unsuited. -/
def Fits (faults : Faults) (n : Nat) (v : Value) : Prop :=
  ∃ k, v.Within k ∧ (k ≤ n ∨ faults.unsuited)

variable {faults : Faults} {n : Nat} {v : Value}

theorem fits_of_isKey (isKey : v.isKey = true) : faults.Fits n v :=
  ⟨0, .key isKey, .inl (Nat.zero_le n)⟩

theorem Fits.of_within (within : v.Within n) : faults.Fits n v := ⟨n, within, .inl (Nat.le_refl n)⟩

theorem Fits.mono {m : Nat} (fits : faults.Fits m v) (le : m ≤ n ∨ faults.unsuited) :
    faults.Fits n v := by
  obtain ⟨k, within, bound⟩ := fits
  refine ⟨k, within, ?_⟩
  rcases le with le | fault
  · exact bound.imp_left fun bound => Nat.le_trans bound le
  · exact .inr fault

theorem Fits.isKey (fits : faults.Fits 0 v) : v.isKey = true ∨ faults.unsuited := by
  obtain ⟨k, within, bound⟩ := fits
  refine bound.imp_left fun bound => ?_
  obtain rfl := Nat.le_zero.mp bound
  exact Value.within_zero.mp within

theorem Fits.normalize (fits : faults.Fits n v) : faults.Fits n v.normalize := by
  cases v with
  | cell => exact fits_of_isKey rfl
  | _ => exact fits

/-! ## Failures -/

section Failures

instance : Tolerant faults.Explain where
  refused cause ordinary isSome := by
    refine ⟨isSome, .inl ?_⟩
    cases known : cause.kind with
    | domain | unboundSymbol | keyNotFound | nonNumeric | divisionByZero => rfl
    | _ =>
      rw [known] at ordinary
      cases ordinary
  worded _ isAllowed := .inl isAllowed.1
  overflow := trivial
  outOfMemory := trivial

variable {α : Type} {post : α → Prop}

/-- An announced failure, if its message can be written. -/
theorem ends_raise {cause : Cause} (announced : cause.kind.compileName?.isSome = true)
    (worded : cause.message?.isSome = true ∨ faults.unsuited) :
    Ends post faults.Explain (raise cause) := by
  refine Ends.raise (fun isSome => ⟨isSome, .inl announced⟩) fun isNone => ?_
  rcases worded with isSome | fault
  · rw [isNone] at isSome
    cases isSome
  · exact fault

/-- An announced failure whose message shows a tree. -/
theorem ends_raise_of {cause : Cause} {e : Expr} (named : Worded faults.Explain e)
    (announced : cause.kind.compileName?.isSome = true)
    (shows : ∀ text, e.text? = some text → cause.message?.isSome = true) :
    Ends post faults.Explain (raise cause) := by
  refine ends_raise announced (named.imp_left fun isSome => ?_)
  obtain ⟨text, isText⟩ := Option.isSome_iff_exists.mp isSome
  exact shows text isText

theorem ends_orUnsupported {x : Option α} (found : x.isSome = true ∨ faults.unsuited) :
    Ends (fun a => x = some a) faults.Explain (orUnsupported x) := by
  cases x with
  | none =>
    rcases found with isSome | fault
    · cases isSome
    · exact fault
  | some => exact rfl

end Failures

/-! ## Steps into containers -/

theorem isKey_numberPart {x : Number} {name : String} (found : Value.numberPart? x name = some v) :
    v.isKey = true := by
  unfold Value.numberPart? at found
  split at found <;> cases found <;> rfl

theorem Fits.below {k : Nat} (within : v.Within k) (bound : k + 1 ≤ n ∨ faults.unsuited) :
    faults.Fits (n - 1) v :=
  ⟨k, within, bound.imp_left fun bound => Nat.le_sub_of_add_le bound⟩

/-- What a key holds, or lists, are keys. -/
theorem isKey_of_holds (container : Value) (isKey : container.isKey = true)
    (held : container.Holds v ∨ container.Lists v) : v.isKey = true := by
  match container with
  | .tuple _ => exact Value.areKeys_iff.mp isKey v (held.elim id id)
  | .range _ _ _ =>
    obtain ⟨n, rfl⟩ := held.elim id id
    rfl
  | .number _ | .cell _ =>
    obtain ⟨name, found⟩ := held.resolve_right id
    exact isKey_numberPart found
  | .none | .str _ => exact (held.elim id id).elim
  | .foreign _ core _ =>
    simp only [Value.isKey, Bool.and_eq_true] at isKey
    rcases held with held | held | mem
    · exact isKey_of_holds core isKey.1.2 (.inl held)
    · exact isKey_of_holds core isKey.1.2 (.inr held)
    · exact Value.areKeys_iff.mp isKey.2 v mem
  | .list _ | .table _ | .set _ | .record _ => cases isKey

/-- One step into a container takes one layer off. -/
theorem Fits.of_holds (fits : faults.Fits n container) (held : container.Holds v) :
    faults.Fits (n - 1) v := by
  obtain ⟨k, within, bound⟩ := fits
  cases within with
  | list all | tuple all => exact .below (all v held) bound
  | table _ values =>
    obtain ⟨entry, mem, rfl⟩ := held
    exact .below (values entry mem) bound
  | key isKey => exact fits_of_isKey (isKey_of_holds container isKey (.inl held))

theorem Fits.of_lists (fits : faults.Fits n container) (listed : container.Lists v) :
    faults.Fits (n - 1) v := by
  obtain ⟨k, within, bound⟩ := fits
  cases within with
  | list all | tuple all => exact .below (all v listed) bound
  | table keys =>
    obtain ⟨entry, mem, rfl⟩ := listed
    exact fits_of_isKey (keys entry mem)
  | key isKey => exact fits_of_isKey (isKey_of_holds container isKey (.inr listed))

end Faults

end LinearProgram
