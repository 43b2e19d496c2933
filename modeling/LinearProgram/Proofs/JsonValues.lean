import LinearProgram.Proofs.Run

/-!
# JSON values

The values that JSON can write: nothing, numbers, text, arrays, and objects whose keys are text
(`Value.IsJson`). The reader gives no others (`Json.parse_isJson`).
-/

namespace LinearProgram

open List

variable {value : Value} {entries : Entries}

/-- A value that JSON can write. -/
inductive Value.IsJson : Value → Prop where
  | none : IsJson .none
  | number (x : Number) : IsJson (.number x)
  | str (s : String) : IsJson (.str s)
  | list {items : List Value} (all : ∀ item ∈ items, IsJson item) : IsJson (.list items)
  | table {entries : Entries} (keys : ∀ entry ∈ entries, ∃ s, entry.1 = .str s)
      (values : ∀ entry ∈ entries, IsJson entry.2) : IsJson (.table entries)

namespace Value

@[simp] theorem isJson_none : (none : Value).IsJson := .none

@[simp] theorem isJson_number (x : Number) : (number x).IsJson := .number x

@[simp] theorem isJson_int (n : Int) : (int n).IsJson := .number _

@[simp] theorem isJson_str (s : String) : (str s).IsJson := .str s

@[simp] theorem isJson_list {items : List Value} :
    (list items).IsJson ↔ ∀ item ∈ items, item.IsJson := by
  constructor
  · intro isJson
    cases isJson with
    | list all => exact all
  · exact .list

@[simp] theorem isJson_table :
    (table entries).IsJson
      ↔ (∀ entry ∈ entries, ∃ s, entry.1 = .str s) ∧ ∀ entry ∈ entries, entry.2.IsJson := by
  constructor
  · intro isJson
    cases isJson with
    | table keys values => exact ⟨keys, values⟩
  · exact fun ⟨keys, values⟩ => .table keys values

end Value

namespace Entries

theorem mem_put {key : Value} {entry : Value × Value} (mem : entry ∈ entries.put key value) :
    (entry.1 = key ∨ ∃ other ∈ entries, entry.1 = other.1)
      ∧ (entry.2 = value ∨ entry ∈ entries) := by
  induction entries with
  | nil =>
    rw [put, mem_singleton] at mem
    rw [mem]
    exact ⟨.inl rfl, .inl rfl⟩
  | cons first _ ih =>
    rw [put] at mem
    split at mem
    all_goals rcases mem_cons.mp mem with rfl | mem
    · exact ⟨.inr ⟨first, mem_cons_self, rfl⟩, .inl rfl⟩
    · exact ⟨.inr ⟨entry, mem_cons_of_mem _ mem, rfl⟩,
        .inr (mem_cons_of_mem _ mem)⟩
    · exact ⟨.inr ⟨entry, mem_cons_self, rfl⟩, .inr mem_cons_self⟩
    · obtain ⟨hasKey, hasValue⟩ := ih mem
      refine ⟨hasKey.imp_right ?_, hasValue.imp_right (mem_cons_of_mem _)⟩
      rintro ⟨other, inside, same⟩
      exact ⟨other, mem_cons_of_mem _ inside, same⟩

theorem isJson_put (isJson : (Value.table entries).IsJson) (name : String) {value : Value}
    (valueIsJson : value.IsJson) : (Value.table (entries.put (.str name) value)).IsJson := by
  cases isJson with
  | table keys values =>
    refine .table (fun entry mem => ?_) fun entry mem => ?_
    · obtain isKey | ⟨other, inside, same⟩ := (mem_put mem).1
      · exact ⟨name, isKey⟩
      · rw [same]
        exact keys other inside
    · obtain isValue | inside := (mem_put mem).2
      · rw [isValue]
        exact valueIsJson
      · exact values entry inside

end Entries

namespace Json

theorem readNumber_isJson {cursor after : Cursor} (read : readNumber cursor = .ok (value, after)) :
    value.IsJson := by
  unfold readNumber at read
  extract_lets negative body whole rest fraction rest exponent used n shift number at read
  by_cases blank : whole.isEmpty = true
  · rw [if_pos blank] at read
    cases read
  · rw [if_neg blank] at read
    have isNumber : number.IsJson := by
      unfold number
      split
      · exact .number _
      · exact .number _
    split at read
    · cases read
    · obtain ⟨rfl, -⟩ := Prod.mk.inj (Except.ok.inj read)
      exact isNumber

theorem readWord?_isJson {cursor after : Cursor} (read : readWord? cursor = some (value, after)) :
    value.IsJson := by
  obtain ⟨word, found, same⟩ := Option.map_eq_some_iff.mp read
  have mem := mem_of_find?_eq_some found
  have words : ∀ word ∈ words, word.2.IsJson := by
    unfold words
    simp only [forall_mem_cons, not_mem_nil, false_implies, implies_true, and_true]
    exact ⟨.none, .number _, .number _, .number _, .number _, .number _⟩
  cases same
  exact words word mem

/-- What is read with some fuel is JSON: a value, and the object or array that a part of it is added
to. -/
theorem read_isJson (fuel : Nat) :
    (∀ cursor value after, readValue fuel cursor = .ok (value, after) → value.IsJson) ∧
    (∀ done cursor value after, (Value.table done).IsJson →
      readMembers fuel done cursor = .ok (value, after) → value.IsJson) ∧
    (∀ done cursor value after, (∀ item ∈ done, Value.IsJson item) →
      readElements fuel done cursor = .ok (value, after) → value.IsJson) := by
  induction fuel with
  | zero =>
    refine ⟨?_, ?_, ?_⟩
    · intro cursor value after read
      cases read
    · intro done cursor value after _ read
      cases read
    · intro done cursor value after _ read
      cases read
  | succ _ ih =>
    obtain ⟨values, members, elements⟩ := ih
    have empty : (Value.table []).IsJson := .table (by simp) (by simp)
    refine ⟨?_, ?_, ?_⟩
    · intro cursor value after read
      rw [readValue] at read
      split at read
      · obtain ⟨⟨text, _⟩, -, same⟩ := bind_eq_ok.mp read
        cases same
        exact .str text
      · dsimp only at read
        split at read
        · cases read
          exact empty
        · exact members _ _ _ _ empty read
      · dsimp only at read
        split at read
        · cases read
          exact .list (by simp)
        · exact elements _ _ _ _ (by simp) read
      · split at read
        · cases read
          exact readWord?_isJson ‹_›
        · exact readNumber_isJson read
    · intro done cursor value after isJson read
      rw [readMembers] at read
      split at read
      · obtain ⟨⟨name, _⟩, -, read⟩ := bind_eq_ok.mp read
        dsimp only at read
        split at read
        · obtain ⟨⟨mem, _⟩, isRead, read⟩ := bind_eq_ok.mp read
          have more := Entries.isJson_put isJson name (values _ _ _ isRead)
          dsimp only at read
          split at read
          · cases read
            exact more
          · split at read
            · exact members _ _ _ _ more read
            · cases read
        · cases read
      · cases read
    · intro done cursor value after areJson read
      rw [readElements] at read
      obtain ⟨⟨item, _⟩, isRead, read⟩ := bind_eq_ok.mp read
      have more : ∀ other ∈ item :: done, Value.IsJson other :=
        forall_mem_cons.mpr ⟨values _ _ _ isRead, areJson⟩
      dsimp only at read
      split at read
      · cases read
        exact .list fun other mem => more other (mem_reverse.mp mem)
      · split at read
        · exact elements _ _ _ _ more read
        · cases read

/-- What is read from text is JSON. -/
theorem parse_isJson {text : String} {data : Value} (read : parse text = .ok data) :
    data.IsJson := by
  unfold parse at read
  dsimp only at read
  split at read
  · cases read
  split at read
  · cases read
  case h_2 value after isRead =>
    split at read
    · cases read
      exact (read_isJson _).1 _ _ _ isRead
    · cases read

end Json

end LinearProgram
