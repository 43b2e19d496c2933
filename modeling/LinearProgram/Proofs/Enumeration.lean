import LinearProgram.Proofs.ExactData
import LinearProgram.Proofs.Suited

/-!
# Bindings are enumerated without loss or repetition

Generators and filters stand for nested loops. A tuple belongs to them (`Generates`) if each value
is in the domain of its name and each filter is true. `bindings` lists exactly these tuples
(`mem_tuples_iff`), in the order of nested loops (`tuples_ascend`), and none twice if no domain
repeats a value (`bindings_enumerate`).
-/

namespace LinearProgram

open List

variable {result : Except Error Value}

/-! ## Complete listings -/

namespace Listing

variable {α β : Type} {parts : α → Listing β} {l : List α}

theorem chain_complete : (chain parts l).stop = none ↔ ∀ a ∈ l, (parts a).stop = none := by
  induction l with
  | nil => simp [chain]
  | cons a _ ih =>
    rw [forall_mem_cons, ← ih, chain]
    cases ended : (parts a).stop with
    | some => simp [ended]
    | none => simp

theorem items_chain (complete : (chain parts l).stop = none) :
    (chain parts l).items = l.flatMap fun a => (parts a).items := by
  induction l with
  | nil => rfl
  | cons _ _ ih =>
    have each := chain_complete.mp complete
    rw [forall_mem_cons] at each
    simp only [chain, each.1, flatMap_cons, ih (chain_complete.mpr each.2)]

end Listing

/-! ## What the loops should pass through -/

/-- The context with some names bound to values, in order. -/
def Context.bindAll (ctx : Context) : List String → List Value → Context
  | name :: names, value :: values => (ctx.bind name value).bindAll names values
  | _, _ => ctx

/-- The domain of the first name that is not bound yet, once the names before it are bound to the
values `earlier`. -/
def NextDomain (gens : List GeneratorItem) (ctx : Context) (earlier items : List Value) :
    Prop :=
  ∃ (k : Nat) (name : String) (domain : Datum), gens[k]? = some (.generator name domain)
    ∧ (boundNames (gens.take k)).length = earlier.length
    ∧ domain.domainValues name (ctx.bindAll (boundNames (gens.take k)) earlier)
      = .ok items

/-- A tuple of values that generators and filters allow: one value for each name, from the domain
that it has under the earlier values, and all filters true under the names bound before them. -/
structure Generates (gens : List GeneratorItem) (ctx : Context) (values : List Value) :
    Prop where
  length : values.length = (boundNames gens).length
  domains : ∀ earlier value later, values = earlier ++ value :: later →
    ∃ items, NextDomain gens ctx earlier items ∧ value ∈ items
  filters : ∀ (k : Nat) (cond : Expr), gens[k]? = some (.filter cond) →
    cond.evaluate (ctx.bindAll (boundNames (gens.take k)) values) = .ok (.bool true)

/-- The loops come to a domain: the earlier values are ones that the steps before it allow. -/
def Encounters (gens : List GeneratorItem) (ctx : Context) (earlier items : List Value) :
    Prop :=
  ∃ (k : Nat) (name : String) (domain : Datum), gens[k]? = some (.generator name domain)
    ∧ Generates (gens.take k) ctx earlier
    ∧ domain.domainValues name (ctx.bindAll (boundNames (gens.take k)) earlier)
      = .ok items

/-- The order of nested loops: where two tuples part, the first has an earlier value of the domain
there. -/
def Precedes (gens : List GeneratorItem) (ctx : Context) (t u : List Value) : Prop :=
  ∃ (earlier items : List Value) (i j : Nat) (v w : Value) (t' u' : List Value),
    t = earlier ++ v :: t' ∧ u = earlier ++ w :: u'
    ∧ Encounters gens ctx earlier items
    ∧ i < j ∧ items[i]? = some v ∧ items[j]? = some w

/-- The tuples of values that the loops pass through, in order. -/
def tuples (gens : List GeneratorItem) (ctx : Context) : List (List Value) :=
  (bindings gens ctx).items.map (indexValues gens)

section Steps

variable {gens rest : List GeneratorItem} {ctx : Context} {cond : Expr} {name : String}
  {domain : Datum} {v : Value} {earlier items values t u : List Value}

@[simp] theorem boundNames_generator :
    boundNames (.generator name domain :: rest) = name :: boundNames rest := rfl

theorem nextDomain_filter :
    NextDomain (.filter cond :: rest) ctx earlier items
      ↔ NextDomain rest ctx earlier items := by
  constructor
  · rintro ⟨k, name, domain, found, count, given⟩
    cases k with
    | zero => simp at found
    | succ k => exact ⟨k, name, domain, found, count, given⟩
  · rintro ⟨k, name, domain, found, count, given⟩
    exact ⟨k + 1, name, domain, found, count, given⟩

theorem nextDomain_nil :
    NextDomain (.generator name domain :: rest) ctx [] items
      ↔ domain.domainValues name ctx = .ok items := by
  constructor
  · rintro ⟨k, other, domain', found, count, given⟩
    cases k with
    | zero =>
      cases found
      exact given
    | succ => simp at count
  · intro given
    exact ⟨0, name, domain, rfl, rfl, given⟩

theorem nextDomain_cons :
    NextDomain (.generator name domain :: rest) ctx (v :: earlier) items
      ↔ NextDomain rest (ctx.bind name v) earlier items := by
  constructor
  · rintro ⟨k, other, domain', found, count, given⟩
    cases k with
    | zero => simp [boundNames] at count
    | succ k => exact ⟨k, other, domain', found, by simpa using count, given⟩
  · rintro ⟨k, other, domain', found, count, given⟩
    exact ⟨k + 1, other, domain', found, by simpa using count, given⟩

theorem generates_nil : Generates [] ctx values ↔ values = [] := by
  constructor
  · intro generates
    exact length_eq_zero_iff.mp generates.length
  · rintro rfl
    exact ⟨rfl, by simp, by simp⟩

theorem generates_filter :
    Generates (.filter cond :: rest) ctx values
      ↔ cond.evaluate ctx = .ok (.bool true) ∧ Generates rest ctx values := by
  constructor
  · intro generates
    have first := generates.filters 0 cond rfl
    cases values <;>
    exact ⟨first, generates.length,
      fun earlier value later split => by
        simpa only [nextDomain_filter] using generates.domains earlier value later split,
      fun k other found => generates.filters (k + 1) other found⟩
  · rintro ⟨first, generates⟩
    refine ⟨generates.length, fun earlier value later split => ?_, fun k other found => ?_⟩
    · simpa only [nextDomain_filter] using generates.domains earlier value later split
    · cases k with
      | zero =>
        cases found
        exact first
      | succ k => exact generates.filters k other found

theorem generates_generator :
    Generates (.generator name domain :: rest) ctx values
      ↔ ∃ items v later, domain.domainValues name ctx = .ok items ∧ v ∈ items
        ∧ values = v :: later ∧ Generates rest (ctx.bind name v) later := by
  constructor
  · intro generates
    obtain ⟨v, later, rfl⟩ := exists_cons_of_length_eq_add_one
      (generates.length.trans length_cons)
    obtain ⟨items, next, mem⟩ := generates.domains [] v later rfl
    refine ⟨items, v, later, nextDomain_nil.mp next, mem, rfl, ?_, ?_, ?_⟩
    · simpa using generates.length
    · rintro earlier value others rfl
      simpa only [nextDomain_cons] using generates.domains (v :: earlier) value others rfl
    · exact fun k cond found => generates.filters (k + 1) cond found
  · rintro ⟨items, v, later, given, mem, rfl, generates⟩
    refine ⟨by simpa using generates.length, fun earlier value others split => ?_,
      fun k cond found => ?_⟩
    · cases earlier with
      | nil =>
        cases split
        exact ⟨items, nextDomain_nil.mpr given, mem⟩
      | cons w earlier =>
        cases split
        simpa only [nextDomain_cons] using generates.domains earlier value others rfl
    · cases k with
      | zero => simp at found
      | succ k => exact generates.filters k cond found

theorem encounters_filter (verdict : cond.evaluate ctx = .ok (.bool true))
    (encounters : Encounters rest ctx earlier items) :
    Encounters (.filter cond :: rest) ctx earlier items := by
  obtain ⟨k, name, domain, found, generates, given⟩ := encounters
  exact ⟨k + 1, name, domain, found, generates_filter.mpr ⟨verdict, generates⟩, given⟩

theorem encounters_first (given : domain.domainValues name ctx = .ok items) :
    Encounters (.generator name domain :: rest) ctx [] items :=
  ⟨0, name, domain, rfl, generates_nil.mpr rfl, given⟩

theorem encounters_cons (given : domain.domainValues name ctx = .ok values)
    (mem : v ∈ values) (encounters : Encounters rest (ctx.bind name v) earlier items) :
    Encounters (.generator name domain :: rest) ctx (v :: earlier) items := by
  obtain ⟨k, other, domain', found, generates, given'⟩ := encounters
  exact ⟨k + 1, other, domain', found,
    generates_generator.mpr ⟨values, v, earlier, given, mem, rfl, generates⟩, given'⟩

theorem precedes_filter (verdict : cond.evaluate ctx = .ok (.bool true))
    (precedes : Precedes rest ctx t u) : Precedes (.filter cond :: rest) ctx t u := by
  obtain ⟨earlier, items, i, j, v, w, t', u', rfl, rfl, encounters, parted⟩ := precedes
  exact ⟨earlier, items, i, j, v, w, t', u', rfl, rfl, encounters_filter verdict encounters, parted⟩

/-- Tuples with one first value are in the order of what follows it. -/
theorem precedes_cons (given : domain.domainValues name ctx = .ok values)
    (mem : v ∈ values) (precedes : Precedes rest (ctx.bind name v) t u) :
    Precedes (.generator name domain :: rest) ctx (v :: t) (v :: u) := by
  obtain ⟨earlier, items, i, j, x, y, t', u', rfl, rfl, encounters, parted⟩ := precedes
  exact ⟨v :: earlier, items, i, j, x, y, t', u', rfl, rfl,
    encounters_cons given mem encounters, parted⟩

/-- Tuples that part at once are in the order of their first values. -/
theorem precedes_first {i j : Nat} {w : Value}
    (given : domain.domainValues name ctx = .ok items) (before : i < j)
    (left : items[i]? = some v) (right : items[j]? = some w) :
    Precedes (.generator name domain :: rest) ctx (v :: t) (w :: u) :=
  ⟨[], items, i, j, v, w, t, u, rfl, rfl, encounters_first given, before, left, right⟩

/-- Values that are unlike wherever they come from one domain make tuples unlike. -/
theorem Precedes.unlike {alike : Value → Value → Prop}
    (differ : ∀ earlier items, Encounters gens ctx earlier items →
      items.Pairwise fun v w => ¬ alike v w)
    (precedes : Precedes gens ctx t u) : ¬ Forall₂ alike t u := by
  obtain ⟨earlier, items, i, j, v, w, t', u', rfl, rfl, encounters, before, left, right⟩ := precedes
  intro related
  have parted : alike v w := by
    have there := forall₂_iff_get.mp related |>.2 earlier.length (by simp) (by simp)
    simpa using there
  obtain ⟨hi, rfl⟩ := List.getElem?_eq_some_iff.mp left
  obtain ⟨hj, rfl⟩ := List.getElem?_eq_some_iff.mp right
  exact pairwise_iff_getElem.mp (differ earlier items encounters) i j hi hj before parted

end Steps

/-! ## What the loops pass through -/

section Loops

variable {gens rest : List GeneratorItem} {ctx inner : Context} {cond : Expr}
  {name : String} {domain : Datum} {items : List Value}

/-- A filter gives a verdict exactly if its condition is a truth value. -/
theorem filterVerdict_eq_ok {b : Bool} :
    filterVerdict cond result = .ok b ↔ result = .ok (.bool b) := by
  constructor
  · intro verdict
    unfold filterVerdict at verdict
    split at verdict
    case h_1 b =>
      cases verdict
      rfl
    case h_2 => cases verdict
    case h_3 =>
      split at verdict <;> cases verdict
    case h_4 => cases verdict
  · rintro rfl
    rfl

theorem filterVerdict_true : filterVerdict cond result = .ok true ↔ result = .ok (.bool true) :=
  filterVerdict_eq_ok

/-- What holds of the first context and is kept by each binding holds of all contexts. -/
theorem of_mem_bindings {P : Context → Prop}
    (kept : ∀ c, ∀ name ∈ boundNames gens, ∀ v, P c → P (c.bind name v)) (start : P ctx)
    (mem : inner ∈ (bindings gens ctx).items) : P inner := by
  induction gens generalizing ctx with
  | nil =>
    cases mem_singleton.mp mem
    exact start
  | cons item _ ih =>
    cases item with
    | filter =>
      unfold bindings at mem
      split at mem
      · exact ih kept start mem
      · cases mem
      · cases mem
    | generator =>
      unfold bindings at mem
      split at mem
      · obtain ⟨value, _, within⟩ := Listing.mem_chain mem
        simp only [boundNames_generator, forall_mem_cons] at kept
        exact ih (fun c => (kept c).2) ((kept ctx).1 value start) within
      · cases mem

theorem get?_of_mem_bindings {other : String} (fresh : other ∉ boundNames gens)
    (mem : inner ∈ (bindings gens ctx).items) :
    inner.bindings.get? other = ctx.bindings.get? other := by
  refine of_mem_bindings (P := fun c => c.bindings.get? other = ctx.bindings.get? other)
    (fun c name known v same => ?_) rfl mem
  rw [Context.bind, Scope.get?_put, if_neg (by rintro rfl; exact fresh known), same]

/-- A filter that is passed leaves the loop behind it, any other verdict leaves nothing. -/
theorem bindings_filter (complete : (bindings (.filter cond :: rest) ctx).stop = none) :
    (cond.evaluate ctx = .ok (.bool true)
        ∧ bindings (.filter cond :: rest) ctx = bindings rest ctx)
      ∨ (cond.evaluate ctx ≠ .ok (.bool true)
        ∧ bindings (.filter cond :: rest) ctx = ⟨[], none⟩) := by
  rw [bindings] at complete ⊢
  split at complete
  case h_1 verdict => exact .inl ⟨filterVerdict_true.mp verdict, rfl⟩
  case h_2 verdict =>
    refine .inr ⟨fun holds => ?_, rfl⟩
    rw [filterVerdict_true.mpr holds] at verdict
    cases verdict
  case h_3 => cases complete

/-- A filter that gives a verdict lets all tuples of the rest pass or none. -/
theorem complete_filter (complete : (bindings (.filter cond :: rest) ctx).stop = none) :
    (cond.evaluate ctx = .ok (.bool true) ∧ (bindings rest ctx).stop = none
        ∧ tuples (.filter cond :: rest) ctx = tuples rest ctx)
      ∨ (cond.evaluate ctx ≠ .ok (.bool true)
        ∧ tuples (.filter cond :: rest) ctx = []) := by
  rcases bindings_filter complete with ⟨holds, passed⟩ | ⟨fails, stopped⟩
  · rw [passed] at complete
    refine .inl ⟨holds, complete, ?_⟩
    rw [tuples, passed]
    rfl
  · refine .inr ⟨fails, ?_⟩
    rw [tuples, stopped]
    rfl

/-- A generator whose loop completes has a domain, and the rest completes under each value. -/
theorem complete_generator
    (complete : (bindings (.generator name domain :: rest) ctx).stop = none) :
    ∃ items, domain.domainValues name ctx = .ok items
      ∧ ∀ v ∈ items, (bindings rest (ctx.bind name v)).stop = none := by
  rw [bindings] at complete
  split at complete
  case h_1 items given => exact ⟨items, given, Listing.chain_complete.mp complete⟩
  case h_2 => cases complete

theorem tuples_generator (given : domain.domainValues name ctx = .ok items)
    (fresh : name ∉ boundNames rest)
    (complete : (bindings (.generator name domain :: rest) ctx).stop = none) :
    tuples (.generator name domain :: rest) ctx
      = items.flatMap fun v => (tuples rest (ctx.bind name v)).map (v :: ·) := by
  unfold tuples
  rw [bindings, given] at complete ⊢
  dsimp only at complete ⊢
  rw [Listing.items_chain complete, map_flatMap]
  congr 1
  funext v
  rw [map_map]
  refine map_congr_left fun inner mem => ?_
  have bound : inner.bindings.get? name = some v := by
    rw [get?_of_mem_bindings fresh mem, Context.bind, Scope.get?_put, if_pos rfl]
  simp [indexValues, GeneratorItem.name?, bound]

/-- Nothing is lost and nothing is added. -/
theorem mem_tuples_iff (distinct : (boundNames gens).Nodup)
    (complete : (bindings gens ctx).stop = none) (t : List Value) :
    t ∈ tuples gens ctx ↔ Generates gens ctx t := by
  induction gens generalizing ctx t with
  | nil =>
    rw [generates_nil]
    exact mem_singleton
  | cons item _ ih =>
    cases item with
    | filter =>
      rw [generates_filter]
      rcases complete_filter complete with ⟨verdict, complete', same⟩ | ⟨verdict, none⟩
      · rw [same, ih distinct complete']
        exact (and_iff_right verdict).symm
      · rw [none]
        exact iff_of_false not_mem_nil fun both => verdict both.1
    | generator =>
      obtain ⟨fresh, distinct'⟩ := nodup_cons.mp distinct
      obtain ⟨items, given, each⟩ := complete_generator complete
      rw [generates_generator, tuples_generator given fresh complete]
      constructor
      · intro mem
        obtain ⟨v, known, within⟩ := mem_flatMap.mp mem
        obtain ⟨later, listed, rfl⟩ := mem_map.mp within
        exact ⟨items, v, later, given, known, rfl,
          (ih distinct' (each v known) later).mp listed⟩
      · rintro ⟨items', v, later, given', known, rfl, generates⟩
        cases given.symm.trans given'
        have listed := (ih distinct' (each v known) later).mpr generates
        exact mem_flatMap.mpr ⟨v, known, mem_map_of_mem listed⟩

/-- The tuples are listed in the order of nested loops. -/
theorem tuples_ascend (distinct : (boundNames gens).Nodup)
    (complete : (bindings gens ctx).stop = none) :
    (tuples gens ctx).Pairwise (Precedes gens ctx) := by
  induction gens generalizing ctx with
  | nil => exact pairwise_singleton _ _
  | cons item _ ih =>
    cases item with
    | filter =>
      rcases complete_filter complete with ⟨verdict, complete', same⟩ | ⟨_, none⟩
      · rw [same]
        exact (ih distinct complete').imp fun precedes => precedes_filter verdict precedes
      · rw [none]
        exact .nil
    | generator _ domain =>
      obtain ⟨fresh, distinct'⟩ := nodup_cons.mp distinct
      obtain ⟨items, given, each⟩ := complete_generator complete
      rw [tuples_generator given fresh complete, pairwise_flatMap]
      constructor
      · intro v known
        rw [pairwise_map]
        exact (ih distinct' (each v known)).imp fun precedes =>
          precedes_cons given known precedes
      · -- two positions of the domain: all tuples of the first come before those of the second
        rw [pairwise_iff_getElem]
        intro i j hi hj before t left u right
        obtain ⟨t', _, rfl⟩ := mem_map.mp left
        obtain ⟨u', _, rfl⟩ := mem_map.mp right
        exact precedes_first given before (getElem?_eq_getElem hi)
          (getElem?_eq_getElem hj)

end Loops

/-- A loop over generators with different names that completes passes through exactly the tuples
that its domains and filters allow, in the order of their positions in the domains. If no domain
that it came to has two alike values, no two of the tuples are alike. -/
theorem bindings_enumerate (gens : List GeneratorItem) (ctx : Context)
    (alike : Value → Value → Prop) (distinct : (boundNames gens).Nodup)
    (complete : (bindings gens ctx).stop = none)
    (differ : ∀ earlier items, Encounters gens ctx earlier items →
      items.Pairwise fun v w => ¬ alike v w) :
    let listed := (bindings gens ctx).items.map (indexValues gens)
    (listed.Pairwise fun t u => ¬ Forall₂ alike t u)
      ∧ listed.Pairwise (Precedes gens ctx)
      ∧ ∀ t, t ∈ listed ↔ Generates gens ctx t :=
  have ascend := tuples_ascend distinct complete
  ⟨ascend.imp fun precedes => precedes.unlike differ, ascend, mem_tuples_iff distinct complete⟩

/-- Two numbers, the second no smaller than the first and different from it. -/
def ascendingPairs : List GeneratorItem :=
  [.generator "i" (.data (.tuple [.int 1, .int 2])),
    .generator "j" (.tree (.range (.symbol "i") (.literal (.int 3)))),
    .filter (.compare .ne (.symbol "i") (.symbol "j"))]

/-- The domain of the second number starts at the first. -/
theorem encounters_ascendingPairs {earlier items : List Value}
    (encounters : Encounters ascendingPairs {} earlier items) :
    items = [.int 1, .int 2] ∨ items = [.int 1, .int 2, .int 3] ∨ items = [.int 2, .int 3] := by
  obtain ⟨k, name, domain, found, generates, given⟩ := encounters
  match k with
  | 0 =>
    cases found
    cases generates_nil.mp generates
    cases given
    exact .inl rfl
  | 1 =>
    cases found
    obtain ⟨_, v, _, listed, mem, rfl, last⟩ := generates_generator.mp generates
    cases listed
    cases generates_nil.mp last
    rcases mem_pair.mp mem with rfl | rfl
    · cases given
      exact .inr (.inl rfl)
    · cases given
      exact .inr (.inr rfl)
  | 2 => cases found
  | k + 3 => cases found

theorem ascendingPairs_enumerated :
    (boundNames ascendingPairs).Nodup ∧ (bindings ascendingPairs {}).stop = none
      ∧ (bindings ascendingPairs {}).items.map (indexValues ascendingPairs)
        = [[.int 1, .int 2], [.int 1, .int 3], [.int 2, .int 3]]
      ∧ ∀ t, t ∈ (bindings ascendingPairs {}).items.map (indexValues ascendingPairs)
        ↔ Generates ascendingPairs {} t := by
  refine ⟨by decide, rfl, rfl, ?_⟩
  have differ : ∀ earlier items, Encounters ascendingPairs {} earlier items →
      items.Pairwise fun v w => ¬ v.equal w = true := by
    intro earlier items encounters
    rcases encounters_ascendingPairs encounters with rfl | rfl | rfl <;> decide
  exact (bindings_enumerate ascendingPairs {} (fun v w => v.equal w = true) (by decide) rfl
    differ).2.2

end LinearProgram
