import LinearProgram.Proofs.CompileEnds
import LinearProgram.Proofs.KeyEquality
import LinearProgram.Proofs.WildcardInstances

/-!
# Trees with a single role

If every carrier of a tree has one wildcard, there is one role. Each value offered for it makes all
references declared (`isDeclared_offered`), so no value is dropped (`expand_single`), because keys
are compared alike from both sides (`Value.same_comm`).
-/

namespace LinearProgram

open List

variable {registry : Option Model}

/-! ## What declared tuples match -/

theorem Value.IsPlain.equal_of_same {v w : Value} (plain : v.IsPlain) (same : w.same v = true) :
    v.equal w = true := by
  rw [← same_comm plain.isKey] at same
  rcases plain with ⟨n, rfl⟩ | ⟨s, rfl⟩
  · cases w <;> simpa [Value.same, bothNaN, int, Number.isNaN] using same
  · cases w <;> simpa [Value.same, bothNaN] using same

theorem Model.Keyed.tuple {m : Model} (keyed : m.Keyed) {family : String} {index : List Value}
    (mem : index ∈ m.tuplesOf family) : Value.areKeys index = true := by
  obtain ⟨v, known, key⟩ := mem_tuplesOf.mp mem
  have isKey := keyed v known
  rw [key] at isKey
  exact isKey

namespace Wildcard

theorem equalItems_of_matches {known index : List Value} (keys : Value.areKeys known = true)
    (matched : matchesPattern (index.map some) known = true) :
    Value.equalItems known index = true := by
  induction index generalizing known with
  | nil => cases known <;> first | rfl | cases matched
  | cons v _ ih =>
    obtain ⟨w, rest, rfl, here, later⟩ := matches_cons.mp matched
    simp only [Value.areKeys, Bool.and_eq_true] at keys
    have same : w.same v = true := by
      rw [Value.same_comm keys.1, Value.same, here v rfl, Bool.or_true]
    rw [Value.equalItems_cons, same, ih keys.2 later]
    rfl

end Wildcard

/-! ## One value in all places -/

namespace Expr

variable {v : Value}

/-- Where one value suffices for all carriers, it is put in the place of every wildcard. -/
theorem substitute_fill {e e' : Expr} (replaced : e.substitute [v] = .ok e') :
    e' = e.fill (literal v) := by
  have place : ∀ {c c' : Expr}, Place [v] (fun e e' => e' = e.fill (literal v)) c c' →
      c.fill (literal v) = c' := by
    rintro c c' (⟨rfl, w, mem, rfl⟩ | rfl)
    · rw [mem_singleton.mp mem, fill]
    · rfl
  have all : ∀ {args args' : List Expr}, Forall₂ (fun c c' => c.fill (literal v) = c')
      args args' → args' = args.map (·.fill (literal v)) := by
    intro args args' related
    induction related with
    | nil => rfl
    | cons same _ ih => rw [map_cons, same, ← ih]
  refine substitute_replacing (R := fun e e' => e' = e.fill (literal v)) ⟨?_, ?_⟩ replaced
  · intro e kept
    unfold isKept at kept
    split at kept
    case h_7 => cases kept
    all_goals rfl
  · intro e e' renewed
    cases renewed with
    | ref places => rw [fill_ref, ← all (places.imp fun _ _ => place)]
    | lookup inner key => rw [fill, inner, place key]
    | arith first second | compare first second | range first second => rw [fill, first, second]
    | negate inner | abs inner | piecewise inner => rw [fill, inner]
    | aggregate several each =>
      rw [fill_aggregate _ several, ← all (each.imp fun _ _ => Eq.symm)]
    | ifThenElse first second third => rw [fill, first, second, third]

end Expr

/-! ## One role -/

theorem Listing.chain_singletons {α β : Type} (f : α → β) (l : List α) :
    Listing.chain (fun a => ⟨[f a], none⟩) l = ⟨l.map f, none⟩ := by
  induction l with
  | nil => rfl
  | cons _ _ ih =>
    rw [Listing.chain, ih]
    rfl

namespace Wildcard

section SingleRole

variable {cfg : Config} {m : Model} {ctx : Context} {e : Expr} {carriers : List Expr}
  {name : Value} {indices : List Expr} {values offers : List Value} {v w : Value}

/-- A reference with one wildcard is declared under the values that equal one of its offers. -/
theorem declared_of_offered {slots : List (Option Value)} {index : List Value}
    (registered : m.Registered cfg) (keyed : m.Keyed)
    (shaped : Slots ctx name indices slots) (single : slots.countP Option.isNone = 1)
    (given : familyDomain (some m) ctx 0 [] name indices = .ok offers) (offered : w ∈ offers)
    (equal : v.equal w = true) (filled : fillSlots [v] slots 0 = index.map some) :
    ∃ family, name = .str family ∧ (m.declared? ⟨family, index⟩).isSome = true := by
  obtain ⟨family, tuples, pattern, place, rfl, found, listed, rfl⟩ := familyDomain_ok given
  have slotted : indexPattern (.ref (.str family) indices) (.str family) ctx
      ([] : List Value).length [] indices 0 0
      = .ok (fillSlots [] slots 0, (slotPlace ([] : List Value).length slots 0).map (· + 0)) :=
    indexPattern_slots shaped
  cases slotted.symm.trans listed
  have known : tuples = m.tuplesOf family := by
    rw [← registered.indexTuples, Model.indexTuples, found]
    rfl
  subst known
  -- the offer is what a declared tuple has in the open slot, so that tuple matches the filled index
  obtain ⟨tuple, mem, offer⟩ := mem_filterMap.mp (mem_of_mem_distinct offered)
  split at offer
  case isTrue matched =>
    obtain ⟨place, isPlace, inside⟩ := Option.bind_eq_some_iff.mp offer
    obtain ⟨place, isSlot, rfl⟩ := Option.map_eq_some_iff.mp isPlace
    have matches_ : matchesPattern (fillSlots ([] ++ [v]) slots 0) tuple = true :=
      matches_append matched (by simp [single]) isSlot inside equal
    rw [nil_append, filled] at matches_
    have same := equalItems_of_matches (keyed.tuple mem) matches_
    obtain ⟨u, column, key⟩ := Model.mem_tuplesOf.mp mem
    refine ⟨family, rfl, ?_⟩
    rw [Model.declared?, find?_isSome]
    refine ⟨u, column, ?_⟩
    rw [key, VarKey.equal, same]
    simp
  case isFalse => cases offer

/-- The check of a reference with one wildcard does not drop a value that equals one of its
offers. -/
theorem isDeclared_offered (registered : m.Registered cfg) (keyed : m.Keyed)
    (single : (Expr.ref name indices).wildcardCount = 1)
    (given : familyDomain (some m) ctx 0 [] name indices = .ok offers) (offered : w ∈ offers)
    (plain : v.IsPlain) (equal : v.equal w = true) {b : Bool}
    (checked : isDeclared (some m) ctx [v] (.ref name indices) = .ok b) : b = true := by
  obtain ⟨_, _, _, _, -, -, pattern, -⟩ := familyDomain_ok given
  obtain ⟨slots, shaped⟩ := slots_of_indexPattern pattern
  rw [Expr.wildcardCount, ← shaped.count] at single
  obtain ⟨index, filled, values⟩ := resolveIndices_fill shaped (t := [v]) (by simp [single])
    (by simpa using plain)
  obtain ⟨family, rfl, declared⟩ :=
    declared_of_offered registered keyed shaped single given offered equal filled
  rw [isDeclared, substitute_ref shaped (by simp [single])] at checked
  dsimp only [bind, Except.bind] at checked
  rw [values] at checked
  dsimp only at checked
  unfold Model.declares at checked
  split at checked
  · exact absurd checked (breakDown_ne_ok _ _)
  · dsimp only at checked
    rw [declared] at checked
    exact (Except.ok.inj checked).symm

/-- What all domains share is an item of each. -/
theorem exists_same_of_mem_intersect {domains : List (List Value)} (mem : v ∈ intersect domains)
    {domain : List Value} (listed : domain ∈ domains) : ∃ w ∈ domain, w = v ∨ w.same v = true := by
  cases domains with
  | nil => cases listed
  | cons =>
    obtain ⟨inFirst, inRest⟩ := mem_filter.mp mem
    rcases mem_cons.mp listed with rfl | other
    · exact ⟨v, inFirst, .inl rfl⟩
    · obtain ⟨w, inside, same⟩ := any_eq_true.mp (all_eq_true.mp inRest domain other)
      exact ⟨w, inside, .inr same⟩

/-- Every reference of the role offers an equal of each value of the role. -/
theorem exists_offer (given : roleDomain (some m) ctx carriers [] = .ok values)
    (mem : .ref name indices ∈ carriers) (single : (Expr.ref name indices).wildcardCount = 1)
    (inRole : v ∈ values) (plain : v.IsPlain) :
    ∃ offers, familyDomain (some m) ctx 0 [] name indices = .ok offers
      ∧ ∃ w ∈ offers, v.equal w = true := by
  obtain ⟨offers, offered, domains, known, rfl⟩ :=
    roleDomain_reference given mem (by simp [single])
  obtain ⟨w, inside, either⟩ := exists_same_of_mem_intersect inRole known
  refine ⟨offers, offered, w, inside, ?_⟩
  rcases either with rfl | same
  · exact (plain.equal_iff plain).mpr rfl
  · exact plain.equal_of_same same

theorem allDeclared_single {references : List Expr} {t : List Value}
    (each : ∀ c ∈ references, ∀ b, isDeclared registry ctx t c = .ok b → b = true) {b : Bool}
    (checked : allDeclared registry ctx t references = .ok b) : b = true := by
  induction references with
  | nil =>
    cases checked
    rfl
  | cons _ _ ih =>
    rw [forall_mem_cons] at each
    obtain ⟨declared, first, checked⟩ := bind_eq_ok.mp checked
    cases each.1 declared first
    exact ih each.2 checked

/-- The roles of carriers with one wildcard each. -/
theorem roles_single (some_ : carriers ≠ []) (single : ∀ c ∈ carriers, c.wildcardCount = 1) :
    carriers.foldl (fun n c => max n c.wildcardCount) 0 = 1 := by
  obtain ⟨c, mem, attained⟩ := roles_attained some_
  rw [← attained, single c mem]

/-- One role takes its values in turn. -/
theorem assignments_single (given : roleDomain registry ctx carriers [] = .ok values) :
    assignments registry ctx carriers 1 [] = ⟨values.map fun v => [v], none⟩ := by
  rw [assignments, given]
  exact Listing.chain_singletons (fun v => [v]) values

/-- **No value of a single role is dropped.** The instances of a tree are the tree with each value
of its role in the places of its wildcards. -/
theorem expand_single {instances : List Expr} (registered : m.Registered cfg)
    (keyed : m.Keyed) (listed : e.carriers false = .ok carriers)
    (single : ∀ c ∈ carriers, c.wildcardCount = 1) (some_ : carriers ≠ [])
    (expanded : expand (some m) ctx e = .ok instances) :
    ∃ values, roleDomain (some m) ctx carriers [] = .ok values
      ∧ ((∀ v ∈ values, v.IsPlain) → instances = values.map fun v => e.fill (.literal v)) := by
  rw [expand, listed] at expanded
  dsimp only [bind, Except.bind] at expanded
  rw [if_neg (by simpa using some_), roles_single some_ single] at expanded
  obtain ⟨complete, folded⟩ := foldM_ok expanded
  cases given : roleDomain (some m) ctx carriers [] with
  | error =>
    rw [assignments, given] at complete
    cases complete
  | ok values =>
    refine ⟨values, rfl, fun plain => ?_⟩
    rw [assignments_single given] at folded
    obtain ⟨checked, built, same, related⟩ := expandAll_passing folded
    -- every reference offers an equal of the value, so each check that is made succeeds
    have all : ∀ t ∈ values.map fun v => [v],
        passes (some m) ctx (carriers.filter Expr.isReference) t = true := by
      intro t mem
      obtain ⟨declared, verdict⟩ := checked t mem
      obtain ⟨v, inRole, rfl⟩ := mem_map.mp mem
      have isTrue : declared = true := by
        refine allDeclared_single (fun c isCarrier b known => ?_) verdict
        obtain ⟨isCarrier, isReference⟩ := mem_filter.mp isCarrier
        cases c with
        | ref =>
          obtain ⟨offers, offered, w, inside, equal⟩ :=
            exists_offer given isCarrier (single _ isCarrier) inRole (plain v inRole)
          exact isDeclared_offered registered keyed (single _ isCarrier) offered inside
            (plain v inRole) equal known
        | _ => cases isReference
      exact passes_iff.mpr (isTrue ▸ verdict)
    rw [filter_eq_self.mpr all] at related
    have filled : Forall₂ Eq built (values.map fun v => e.fill (.literal v)) :=
      forall₂_map_right_iff.mpr
        ((forall₂_map_left_iff.mp related).flip.imp fun _ _ => Expr.substitute_fill)
    rw [same, nil_append]
    rwa [forall₂_eq_eq_eq] at filled

end SingleRole

end Wildcard

end LinearProgram
