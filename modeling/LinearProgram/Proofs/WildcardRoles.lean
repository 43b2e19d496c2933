import LinearProgram.Proofs.Registry

/-!
# The values of a role

The k-th wildcards of all carriers take one value, that of role k. The fixed places and the
wildcards of a reference are its `Slots`: filled with all values they give the index tuple
(`resolveIndices_fill`), with fewer the pattern that its offers match (`indexPattern_slots`). Index
values are integers or texts here.
-/

namespace LinearProgram

open List
open Option (isNone map_eq_some_iff)

/-! ## Plain values -/

namespace Value

/-- An integer or a text. -/
def IsPlain (v : Value) : Prop := (∃ n, v = int n) ∨ ∃ s, v = str s

instance (v : Value) : Decidable v.IsPlain :=
  match v with
  | number (.int n) => .isTrue (.inl ⟨n, rfl⟩)
  | str s => .isTrue (.inr ⟨s, rfl⟩)
  | number (.bool _) | number (.float _) | none | list _ | tuple _ | table _ | range _ _ _ | set _
  | foreign _ _ _ | cell _ | record _ => .isFalse (by rintro (⟨_, same⟩ | ⟨_, same⟩) <;> cases same)

namespace IsPlain

variable {v w : Value}

theorem normalize (plain : v.IsPlain) : v.normalize = v := by
  rcases plain with ⟨n, rfl⟩ | ⟨s, rfl⟩ <;> rfl

theorem isKey (plain : v.IsPlain) : v.isKey = true := by
  rcases plain with ⟨n, rfl⟩ | ⟨s, rfl⟩ <;> rfl

theorem same_eq_equal (plain : v.IsPlain) (w : Value) : v.same w = w.equal v := by
  rcases plain with ⟨n, rfl⟩ | ⟨s, rfl⟩
  · cases w <;> simp [same, bothNaN, equal, int, Number.isNaN, Number.int_equal_comm]
  · cases w <;> simp [same, bothNaN, equal, Bool.beq_comm]

theorem equal_iff (left : v.IsPlain) (right : w.IsPlain) : v.equal w = true ↔ v = w := by
  rcases left with ⟨n, rfl⟩ | ⟨s, rfl⟩ <;> rcases right with ⟨k, rfl⟩ | ⟨t, rfl⟩
  · simp [equal, int, Number.equal_of_toInt (x := .int n) (y := .int k) rfl rfl]
  · simp [equal, int]
  · simp [equal, int]
  · simp [equal]

theorem same_iff (left : v.IsPlain) (right : w.IsPlain) : v.same w = true ↔ v = w := by
  rw [left.same_eq_equal, right.equal_iff left]
  exact eq_comm

end IsPlain

end Value

namespace Wildcard

/-! ## Lists of values -/

section Lists

variable {l : List Value} {domains : List (List Value)} {v : Value}

end Lists

/-! ## Slots -/

/-- The slots with the k-th open one filled by the k-th value, from the given k on. -/
def fillSlots (values : List Value) : List (Option Value) → Nat → List (Option Value)
  | [], _ => []
  | none :: rest, seen => values[seen]? :: fillSlots values rest (seen + 1)
  | some v :: rest, seen => some v :: fillSlots values rest seen

/-- The place of an open slot. -/
def slotPlace (role : Nat) : List (Option Value) → Nat → Option Nat
  | [], _ => none
  | none :: rest, seen =>
    if seen = role then some 0 else (slotPlace role rest (seen + 1)).map (· + 1)
  | some _ :: rest, seen => (slotPlace role rest seen).map (· + 1)

section Slots

variable {slots : List (Option Value)} {t index : List Value} {v : Value} {k seen place : Nat}

theorem matches_cons {slot : Option Value} {pattern : List (Option Value)} :
    matchesPattern (slot :: pattern) index = true
      ↔ ∃ w rest, index = w :: rest ∧ (∀ p, slot = some p → p.equal w = true)
        ∧ matchesPattern pattern rest = true := by
  cases index with
  | nil | cons => cases slot <;> simp [matchesPattern]

theorem fillSlots_of_full (full : slots.countP isNone = 0) :
    fillSlots t slots seen = slots := by
  induction slots generalizing seen with
  | nil => rfl
  | cons slot _ ih =>
    cases slot with
    | none => simp at full
    | some =>
      rw [countP_cons_of_neg (by simp)] at full
      rw [fillSlots, ih full]

/-- Filling the last open slot with an equal of what stands in its place keeps a match. -/
theorem matches_append {w : Value} (matched : matchesPattern (fillSlots t slots seen) index = true)
    (last : t.length + 1 = seen + slots.countP isNone)
    (found : slotPlace t.length slots seen = some place) (value : index[place]? = some w)
    (equal : v.equal w = true) :
    matchesPattern (fillSlots (t ++ [v]) slots seen) index = true := by
  induction slots generalizing seen index place with
  | nil => cases found
  | cons slot rest ih =>
    cases slot with
    | none =>
      obtain ⟨u, later, rfl, here, others⟩ := matches_cons.mp matched
      rw [countP_cons_of_pos rfl] at last
      rw [slotPlace] at found
      split at found
      case isTrue same =>
        -- the last open slot: the ones after it are fixed
        subst same
        cases found
        cases value
        have full : rest.countP isNone = 0 := by omega
        refine matches_cons.mpr ⟨w, later, rfl, fun p isValue => ?_, ?_⟩
        · rw [getElem?_concat_length] at isValue
          cases isValue
          exact equal
        · rw [fillSlots_of_full full] at others ⊢
          exact others
      case isFalse different =>
        obtain ⟨before, below, rfl⟩ := map_eq_some_iff.mp found
        refine matches_cons.mpr ⟨u, later, rfl, fun p isValue => here p ?_,
          ih others (by omega) below value⟩
        rwa [getElem?_append_left (by omega)] at isValue
    | some =>
      obtain ⟨u, later, rfl, here, others⟩ := matches_cons.mp matched
      rw [countP_cons_of_neg (by simp)] at last
      obtain ⟨before, below, rfl⟩ := map_eq_some_iff.mp found
      exact matches_cons.mpr ⟨u, later, rfl, here, ih others last below value⟩

end Slots

end Wildcard

/-! ## Trees without wildcards -/

namespace Expr

theorem isWildcard_of_isConstant {e : Expr} (constant : e.isConstant = true) :
    e.isWildcard = false := by
  cases e with
  | wildcard => exact absurd constant (by decide)
  | _ => rfl

/-- A constant tree has no wildcards to replace. -/
theorem substituteStep_of_isConstant (values : List Value) (e : Expr)
    (constant : e.isConstant = true) : substituteStep values e = .ok (e, 0) := by
  induction e using induction_on_kinds with
  | wildcard => exact absurd constant (by decide)
  | kept e kept => exact substituteStep_of_isKept kept
  | ref =>
    rw [isConstant_eq] at constant
    cases constant
  | lookup _ key _ inner outer =>
    have constantKey := isConstant_of_child (c := key) constant (by simp [children])
    have filled := isWildcard_of_isConstant constantKey
    unfold substituteStep
    rw [inner (isConstant_of_child constant mem_cons_self)]
    cases key with
    | wildcard => cases filled
    | _ => simp only [outer constantKey, bind, Except.bind, pure, Except.pure]
  | joint e joint ih =>
    have below : ∀ c ∈ e.children, substituteStep values c = .ok (c, 0) := fun c mem =>
      ih c mem (isConstant_of_child constant mem)
    have each : e.children.mapM (substitute values) = .ok e.children := by
      have one : ∀ c ∈ e.children, substitute values c = pure (id c) := fun c mem => by
        rw [substitute, below c mem]
        rfl
      rw [mapM_congr_of_mem one, mapM_pure, map_id]
      rfl
    rw [substituteStep_of_isJoint joint, substituteAll_eq_mapM, each]
    cases e <;> rfl

/-- The indices of a reference with its wildcards replaced by values in turn. -/
def fillWildcards : List Expr → List Value → List Expr
  | .wildcard :: rest, v :: values => .literal v :: fillWildcards rest values
  | index :: rest, values => index :: fillWildcards rest values
  | [], _ => []

end Expr

namespace Wildcard

/-! ## References -/

/-- The fixed indices of a reference have values, and its wildcards are open slots. -/
def Slots (ctx : Context) (name : Value) : List Expr → List (Option Value) → Prop :=
  Forall₂ fun index slot => (index = .wildcard ∧ slot = none)
    ∨ (index.isWildcard = false
      ∧ ∃ v, slot = some v ∧ ∀ reference, resolveIndex reference name ctx index = .ok v)

section References

variable {ctx : Context} {name : Value} {indices : List Expr} {slots : List (Option Value)}
  {reference : Expr} {role seen position : Nat} {assigned t : List Value}

theorem Slots.count (shaped : Slots ctx name indices slots) :
    slots.countP isNone = indices.countP Expr.isWildcard := by
  induction shaped with
  | nil => rfl
  | cons head _ ih =>
    rcases head with ⟨rfl, rfl⟩ | ⟨fixed, v, rfl, -⟩
    · rw [countP_cons_of_pos rfl, countP_cons_of_pos rfl, ih]
    · rw [countP_cons_of_neg (by simp), countP_cons_of_neg (by simp [fixed]), ih]

/-- Which reference an index belongs to matters for messages only. -/
theorem resolveIndex_any {index : Expr} {v : Value}
    (given : resolveIndex reference name ctx index = .ok v) (other : Expr) :
    resolveIndex other name ctx index = .ok v := by
  cases index with
  | wildcard => exact absurd given (raise_ne_ok _ _)
  | _ => exact given

theorem isConstant_of_resolveIndex {index : Expr} {v : Value}
    (given : resolveIndex reference name ctx index = .ok v) : index.isConstant = true := by
  unfold resolveIndex at given
  split at given
  · exact absurd given (raise_ne_ok _ _)
  · rfl
  · split at given
    · assumption
    · exact absurd given (raise_ne_ok _ _)

theorem slots_of_indexPattern {found : List (Option Value) × Option Nat}
    (listed : indexPattern reference name ctx role assigned indices seen position = .ok found) :
    ∃ slots, Slots ctx name indices slots := by
  induction indices generalizing seen position found with
  | nil => exact ⟨[], .nil⟩
  | cons index _ ih =>
    unfold indexPattern at listed
    split at listed
    case isTrue isWildcard =>
      obtain ⟨_, later, _⟩ := bind_eq_ok.mp listed
      obtain ⟨slots, related⟩ := ih later
      cases index with
      | wildcard => exact ⟨none :: slots, .cons (.inl ⟨rfl, rfl⟩) related⟩
      | _ => cases isWildcard
    case isFalse fixed =>
      obtain ⟨v, given, listed⟩ := bind_eq_ok.mp listed
      obtain ⟨_, later, _⟩ := bind_eq_ok.mp listed
      obtain ⟨slots, related⟩ := ih later
      exact ⟨some v :: slots, .cons (.inr ⟨Bool.eq_false_iff.mpr fixed, v, rfl,
        resolveIndex_any given⟩) related⟩

/-- The pattern of a reference is its slots, filled as far as there are values. -/
theorem indexPattern_slots (shaped : Slots ctx name indices slots) :
    indexPattern reference name ctx assigned.length assigned indices seen position
      = .ok (fillSlots assigned slots seen,
        (slotPlace assigned.length slots seen).map (· + position)) := by
  induction shaped generalizing seen position with
  | nil => rfl
  | cons head _ ih =>
    have further : ∀ place : Option Nat,
        place.map (· + (position + 1)) = (place.map (· + 1)).map (· + position) := by
      intro place
      cases place with
      | none => rfl
      | some => simp [Nat.add_comm 1, Nat.add_assoc]
    rcases head with ⟨rfl, rfl⟩ | ⟨fixed, v, rfl, given⟩
    · have here :
          (if seen < assigned.length then assigned[seen]? else none) = assigned[seen]? := by
        split
        · rfl
        case isFalse past => exact (getElem?_eq_none (Nat.not_lt.mp past)).symm
      unfold indexPattern
      rw [show Expr.wildcard.isWildcard = true from rfl, if_pos rfl, ih]
      dsimp only [bind, Except.bind, pure, Except.pure]
      rw [here, further, fillSlots, slotPlace, apply_ite (Option.map (· + position))]
      simp
    · unfold indexPattern
      rw [if_neg (by simp [fixed]), given, ih]
      dsimp only [bind, Except.bind, pure, Except.pure]
      rw [further, fillSlots, slotPlace]

theorem resolveIndices_fill (shaped : Slots ctx name indices slots)
    (enough : slots.countP isNone ≤ t.length) (plain : ∀ v ∈ t, v.IsPlain) :
    ∃ index, fillSlots t slots 0 = index.map some
      ∧ resolveIndices name (Expr.fillWildcards indices t) ctx = .ok index := by
  -- the reference that the indices belong to stays the same down the list
  have each : ∀ reference seen, seen + slots.countP isNone ≤ t.length →
      ∃ index, fillSlots t slots seen = index.map some
        ∧ (Expr.fillWildcards indices (t.drop seen)).mapM (resolveIndex reference name ctx)
          = .ok index := by
    intro reference
    clear enough
    induction shaped with
    | nil => exact fun seen _ => ⟨[], rfl, rfl⟩
    | cons head _ ih =>
      intro seen enough
      rcases head with ⟨rfl, rfl⟩ | ⟨fixed, v, rfl, given⟩
      · rw [countP_cons_of_pos rfl] at enough
        have here : seen < t.length := by omega
        obtain ⟨index, filled, listed⟩ := ih (seen + 1) (by omega)
        refine ⟨t[seen] :: index, ?_, ?_⟩
        · rw [fillSlots, filled, getElem?_eq_getElem here, map_cons]
        · rw [drop_eq_getElem_cons here, Expr.fillWildcards, mapM_cons, listed]
          show Except.ok (t[seen].normalize :: index) = _
          rw [(plain t[seen] (getElem_mem here)).normalize]
      · rw [countP_cons_of_neg (by simp)] at enough
        obtain ⟨index, filled, listed⟩ := ih seen enough
        refine ⟨v :: index, by rw [fillSlots, filled, map_cons], ?_⟩
        rw [Expr.fillWildcards, mapM_cons, given reference, listed]
        · rfl
        · rintro rest v values rfl
          cases fixed
  exact each (.ref name (Expr.fillWildcards indices t)) 0 (by omega)

/-- Replacing the wildcards of a reference touches nothing else in it. -/
theorem substitute_ref (shaped : Slots ctx name indices slots)
    (enough : slots.countP isNone ≤ t.length) :
    (Expr.ref name indices).substitute t = .ok (.ref name (Expr.fillWildcards indices t)) := by
  have each : ∀ used, used + slots.countP isNone ≤ t.length →
      Expr.substituteIndices t indices used = .ok (Expr.fillWildcards indices (t.drop used)) := by
    clear enough
    induction shaped with
    | nil => exact fun used _ => rfl
    | @cons index slot _ _ head tail ih =>
      intro used enough
      rcases head with ⟨rfl, rfl⟩ | ⟨fixed, v, rfl, given⟩
      · rw [countP_cons_of_pos rfl] at enough
        have here : used < t.length := by omega
        unfold Expr.substituteIndices
        rw [getElem?_eq_getElem here, ih (used + 1) (by omega),
          drop_eq_getElem_cons here, Expr.fillWildcards]
        rfl
      · rw [countP_cons_of_neg (by simp)] at enough
        have unchanged := Expr.substituteStep_of_isConstant t index
          (isConstant_of_resolveIndex (given index))
        unfold Expr.substituteIndices
        split
        · cases fixed
        · rw [unchanged, ih used enough, Expr.fillWildcards]
          · rfl
          · rintro rest v values rfl
            cases fixed
  rw [Expr.substitute, Expr.substituteStep, each 0 (by omega)]
  rfl

end References

/-! ## Declared instances -/

end Wildcard

/-- All index values of a model are integers or texts. -/
def Model.PlainIndices (m : Model) : Prop := ∀ v ∈ m.columns, ∀ x ∈ v.key.index, x.IsPlain

instance (m : Model) : Decidable m.PlainIndices :=
  inferInstanceAs (Decidable (∀ v ∈ m.columns, ∀ x ∈ v.key.index, x.IsPlain))

theorem Model.PlainIndices.tuple {m : Model} (plain : m.PlainIndices) {family : String}
    {index : List Value} (mem : index ∈ m.tuplesOf family) : ∀ x ∈ index, x.IsPlain := by
  obtain ⟨v, known, key⟩ := mem_tuplesOf.mp mem
  have each := plain v known
  rw [key] at each
  exact each

namespace Wildcard

section Declared

variable {cfg : Config} {m : Model} {ctx : Context} {name : Value} {indices : List Expr}
  {slots : List (Option Value)} {t index values : List Value} {family : String} {v : Value}

/-- What a reference offers, if it offers anything: its family is declared, and its indices have
values. -/
theorem familyDomain_ok {role : Nat}
    (given : familyDomain (some m) ctx role t name indices = .ok values) :
    ∃ family tuples pattern place, name = .str family ∧ m.family? family = some tuples
      ∧ indexPattern (.ref name indices) name ctx role t indices 0 0 = .ok (pattern, place)
      ∧ values = distinct (tuples.filterMap fun index =>
        if matchesPattern pattern index then place.bind (index[·]?) else none) := by
  unfold familyDomain at given
  dsimp only at given
  split at given
  case h_1 known family isModel =>
    cases isModel
    split at given
    case h_1 tuples found =>
      rw [pure_bind] at given
      obtain ⟨⟨pattern, place⟩, listed, done⟩ := bind_eq_ok.mp given
      cases done
      exact ⟨family, tuples, pattern, place, rfl, found, listed, rfl⟩
    case h_2 => cases given
  case h_2 =>
    split at given <;> cases given
  case h_3 => cases given

end Declared

end Wildcard

end LinearProgram
