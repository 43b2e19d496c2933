import LinearProgram.Object
import Mathlib.Data.List.Perm.Basic
import Mathlib.Data.List.Nodup

/-!
# Changes in place

Data nothing of which is held twice (`Object.Unshared`) are changed in one place by a change in
place. `Surrounds avoid hole` says that `hole` is what stands around one part of an object, and
holds the tables and lists `avoid`: what replaces any other one reaches into the part only.
-/

namespace LinearProgram

open List

namespace Object

variable {parts : List (Value × Object)} {x new : Object} {id n : Nat} {key k : Value}

/-! ## Parts of objects -/

theorem contents_eq (parts : List (Value × Object)) :
    contents parts = parts.map fun part => (part.1, part.2.content) := by
  induction parts with
  | nil => rfl
  | cons _ _ ih => rw [contents, ih, map_cons]

/-- What stands under a key, at the first place where the key is found. -/
theorem get?_contents (key : Value) (parts : List (Value × Object)) :
    (contents parts).get? key
      = (parts[parts.findIdx fun part => part.1.equal key]?).map (·.2.content) := by
  unfold Entries.get?
  induction parts with
  | nil => rfl
  | cons part _ ih =>
    by_cases same : part.1.equal key = true
    · simp [contents, findIdx_cons, same]
    · simp [contents, findIdx_cons, same, ih]

theorem contents_setAt (key : Value) (x : Object) (parts : List (Value × Object)) :
    contents (setAt key x (parts.findIdx fun part => part.1.equal key) parts)
      = (contents parts).put key x.content := by
  induction parts with
  | nil => rfl
  | cons part _ ih =>
    by_cases same : part.1.equal key = true
    · simp [setAt, contents, findIdx_cons, Entries.put, same]
    · simp [setAt, contents, findIdx_cons, Entries.put, same, ih]

theorem items_setAt (inside : n < parts.length) (key : Value) (x : Object) :
    (contents (setAt key x n parts)).map Prod.snd
      = ((contents parts).map Prod.snd).set n x.content := by
  induction parts generalizing n with
  | nil => cases inside
  | cons _ _ ih =>
    cases n with
    | zero => rfl
    | succ => simp [setAt, contents, ih (Nat.lt_of_succ_lt_succ inside)]

theorem setAt_self (found : parts[n]? = some (k, x)) : setAt key x n parts = parts := by
  induction parts generalizing n with
  | nil => cases found
  | cons _ _ ih =>
    cases n with
    | zero =>
      cases found
      rfl
    | succ => rw [setAt, ih found]

mutual

/-- What is not held is not replaced. -/
theorem replace_eq_self (x : Object) (absent : id ∉ x.labels) : replace id new x = x := by
  match x with
  | plain _ _ => rfl
  | node k _ parts =>
    rw [labels, mem_cons, not_or] at absent
    rw [replace, if_neg (Ne.symm absent.1), replaceAll_eq_self parts absent.2]

theorem replaceAll_eq_self (parts : List (Value × Object)) (absent : id ∉ labelsAll parts) :
    replaceAll id new parts = parts := by
  match parts with
  | [] => rfl
  | (_, x) :: rest =>
    rw [labelsAll, mem_append, not_or] at absent
    rw [replaceAll, replace_eq_self x absent.1, replaceAll_eq_self rest absent.2]

end

/-- What is held besides one of some parts. -/
def others : Nat → List (Value × Object) → List Nat
  | _, [] => []
  | 0, _ :: rest => labelsAll rest
  | n + 1, (_, x) :: rest => x.labels ++ others n rest

theorem labels_setAt (key : Value) (x : Object) (n : Nat) (parts : List (Value × Object)) :
    (labelsAll (setAt key x n parts)).Perm (x.labels ++ others n parts) := by
  induction parts generalizing n with
  | nil => simp [setAt, labelsAll, others]
  | cons _ _ ih =>
    cases n with
    | zero => exact .refl _
    | succ n =>
      simp only [setAt, labelsAll, others]
      refine ((ih n).append_left _).trans ?_
      rw [← append_assoc, ← append_assoc]
      exact perm_append_comm.append_right _

theorem others_sublist (n : Nat) (parts : List (Value × Object)) :
    (others n parts).Sublist (labelsAll parts) := by
  induction parts generalizing n with
  | nil => simp [others]
  | cons _ _ ih =>
    cases n with
    | zero => exact sublist_append_right _ _
    | succ n => exact (ih n).append_left _

theorem replaceAll_setAt (absent : id ∉ others n parts) :
    replaceAll id new (setAt key x n parts) = setAt key (replace id new x) n parts := by
  induction parts generalizing n with
  | nil => simp [setAt, replaceAll]
  | cons _ rest ih =>
    cases n with
    | zero => rw [setAt, setAt, replaceAll, replaceAll_eq_self rest absent]
    | succ n =>
      rw [others, mem_append, not_or] at absent
      rw [setAt, setAt, replaceAll, replace_eq_self _ absent.1, ih absent.2]

/-! ## Numbers -/

mutual

/-- Numbered data are the data, and each number is used once. -/
theorem label_spec (n : Nat) (v : Value) : (label n v).1.content = v
    ∧ ∃ k, (label n v).2 = n + k ∧ (label n v).1.labels = range' n k := by
  match v with
  | .table entries =>
    obtain ⟨same, k, next, numbers⟩ := labelEntries_spec (n + 1) entries
    refine ⟨by simp [label, content, same], k + 1, ?_, ?_⟩
    · simp only [label, next]
      omega
    · simp [label, labels, numbers, range'_succ]
  | .list items =>
    obtain ⟨same, k, next, numbers⟩ := labelItems_spec (n + 1) items
    refine ⟨by simp [label, content, same], k + 1, ?_, ?_⟩
    · simp only [label, next]
      omega
    · simp [label, labels, numbers, range'_succ]
  | .none | .number _ | .str _ | .tuple _ | .range _ _ _ | .set _ | .foreign _ _ _ | .cell _
  | .record _ => exact ⟨rfl, 0, rfl, rfl⟩

theorem labelEntries_spec (n : Nat) (entries : List (Value × Value)) :
    contents (labelEntries n entries).1 = entries
      ∧ ∃ k, (labelEntries n entries).2 = n + k
        ∧ labelsAll (labelEntries n entries).1 = range' n k := by
  match entries with
  | [] => exact ⟨rfl, 0, rfl, rfl⟩
  | (key, v) :: rest =>
    obtain ⟨same, j, next, numbers⟩ := label_spec n v
    obtain ⟨same', k, next', numbers'⟩ := labelEntries_spec (n + j) rest
    refine ⟨by simp [labelEntries, contents, same, next, same'], j + k, ?_, ?_⟩
    · simp [labelEntries, next, next', Nat.add_assoc]
    · simp [labelEntries, labelsAll, next, numbers, numbers', range'_append_1]

theorem labelItems_spec (n : Nat) (items : List Value) :
    (contents (labelItems n items).1).map Prod.snd = items
      ∧ ∃ k, (labelItems n items).2 = n + k
        ∧ labelsAll (labelItems n items).1 = range' n k := by
  match items with
  | [] => exact ⟨rfl, 0, rfl, rfl⟩
  | v :: rest =>
    obtain ⟨same, j, next, numbers⟩ := label_spec n v
    obtain ⟨same', k, next', numbers'⟩ := labelItems_spec (n + j) rest
    refine ⟨by simp [labelItems, contents, same, next, same'], j + k, ?_, ?_⟩
    · simp [labelItems, next, next', Nat.add_assoc]
    · simp [labelItems, labelsAll, next, numbers, numbers', range'_append_1]

end

theorem lt_free {k : Nat} (x : Object) (mem : k ∈ x.labels) : k < x.free := by
  unfold free
  generalize x.labels = ids at mem ⊢
  induction ids with
  | nil => cases mem
  | cons first rest ih =>
    rw [foldr_cons]
    rcases mem_cons.mp mem with rfl | later
    · exact Nat.lt_of_lt_of_le (Nat.lt_succ_self k) (Nat.le_max_left _ _)
    · exact Nat.lt_of_lt_of_le (ih later) (Nat.le_max_right _ _)

/-- Nothing is held twice. -/
def Unshared (x : Object) : Prop := x.labels.Nodup

theorem ofValue_unshared (v : Value) : (ofValue v).Unshared := by
  obtain ⟨_, _, _, numbers⟩ := label_spec 0 v
  unfold Unshared ofValue
  rw [numbers]
  exact nodup_range'

theorem content_ofValue (v : Value) : (ofValue v).content = v := (label_spec 0 v).1

/-- Distinct numbers below a bound. -/
def Apart (next : Nat) (ids : List Nat) : Prop := ids.Nodup ∧ ∀ id ∈ ids, id < next

namespace Apart

variable {next : Nat} {ids ids' lower others inner fresh avoid : List Nat}

theorem perm (apart : Apart next ids) (perm : ids.Perm ids') : Apart next ids' :=
  ⟨perm.nodup_iff.mp apart.1, fun id mem => apart.2 id (perm.mem_iff.mpr mem)⟩

theorem cons (apart : Apart next ids) : Apart (next + 1) (next :: ids) := by
  refine ⟨nodup_cons.mpr ⟨fun mem => Nat.lt_irrefl _ (apart.2 _ mem), apart.1⟩, ?_⟩
  rintro id (_ | ⟨_, mem⟩)
  · exact Nat.lt_succ_self _
  · exact Nat.lt_succ_of_lt (apart.2 _ mem)

/-- What is held apart from a part, and something new, do not overlap either. -/
theorem around (sub : others.Sublist lower) (apart : Apart next (id :: lower ++ fresh ++ avoid)) :
    id ∉ avoid ∧ Apart next (fresh ++ (id :: others ++ avoid)) := by
  constructor
  · have distinct := apart.1
    rw [cons_append, cons_append, nodup_cons] at distinct
    exact fun mem => distinct.1 (mem_append_right _ mem)
  · have fewer := ((sub.cons_cons id).append_right fresh).append_right avoid
    have kept : Apart next (id :: others ++ fresh ++ avoid) :=
      ⟨apart.1.sublist fewer, fun id mem => apart.2 id (fewer.subset mem)⟩
    refine kept.perm ?_
    rw [← append_assoc]
    exact perm_append_comm.append_right _

theorem into (held : lower.Perm (inner ++ others))
    (apart : Apart next (id :: lower ++ fresh ++ avoid)) :
    Apart next (inner ++ fresh ++ (id :: others ++ avoid)) := by
  refine apart.perm (perm_iff_count.mpr fun k => ?_)
  have counts := held.count_eq k
  simp only [count_append, count_cons] at counts ⊢
  omega

end Apart

theorem nodup_around {lower others inner avoid : List Nat} (held : lower.Perm (inner ++ others))
    (distinct : (inner ++ (id :: others ++ avoid)).Nodup) : (id :: lower ++ avoid).Nodup := by
  refine (Perm.nodup_iff (perm_iff_count.mpr fun k => ?_)).mp distinct
  have counts := held.count_eq k
  simp only [count_append, count_cons] at counts ⊢
  omega

/-! ## Around a part -/

/-- What stands around one part of an object, and holds the tables and lists `avoid`. -/
def Surrounds (avoid : List Nat) (hole : Object → Object) : Prop :=
  ∀ id ∉ avoid, ∀ new x, replace id new (hole x) = hole (replace id new x)

namespace Surrounds

variable {avoid : List Nat} {hole : Object → Object}

theorem nothing : Surrounds [] (fun x => x) := fun _ _ _ _ => rfl

theorem part (surrounds : Surrounds avoid hole) (id n : Nat) (isTable : Bool) (key : Value)
    (parts : List (Value × Object)) :
    Surrounds (id :: others n parts ++ avoid)
      fun x => hole (node id isTable (setAt key x n parts)) := by
  intro k absent new x
  rw [cons_append, mem_cons, mem_append, not_or, not_or] at absent
  obtain ⟨ne, elsewhere, outside⟩ := absent
  rw [surrounds k outside, replace, if_neg (Ne.symm ne), replaceAll_setAt elsewhere]

end Surrounds

end Object

end LinearProgram
