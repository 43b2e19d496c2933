import LinearProgram.Proofs.EvaluationEnds
import LinearProgram.Proofs.Journal

/-!
# How the expansion of wildcards ends

The instances of a tree have the faults of the tree and no others (`Expr.Resembles`), and expansion
fails only as these explain (`Wildcard.expand_ends`). As many roles are filled as any carrier has,
and a container is looked at with as many values as its chain has wildcards before it
(`Expr.substituteStep_ends`).
-/

namespace LinearProgram

open List

variable {e' e : Expr} {trees found : List Expr} {values : List Value}
  {gens : List GeneratorItem}

namespace Expr

variable {faults : Faults} {ranks : Ranks} {ctx : Context} {e : Expr}

/-! ## Trees with their faults -/

/-- A tree that is compiled, with its faults. -/
structure Excused (faults : Faults) (ranks : Ranks) (e : Expr) : Prop where
  formed : e.AllFormed faults.attributes
  suited : e.isSuited ranks = true ∨ faults.unsuited
  closed : e.hasOpenCondition = false ∨ faults.openCondition
  unnested : e.hasNestedWildcard = false ∨ faults.nestedWildcard

namespace Excused

theorem named (excused : e.Excused faults ranks) : e.text?.isSome = true ∨ faults.unsuited :=
  named_of_suited excused.suited

theorem child (excused : e.Excused faults ranks) (plain : e.binds = false) {c : Expr}
    (mem : c ∈ e.children) : c.Excused faults ranks where
  formed := excused.formed.child mem
  suited := excused.suited.imp_left fun suited => isSuited_child suited plain mem
  closed := excused.closed.imp_left fun closed => any_walk_of_child closed mem
  unnested := excused.unnested.imp_left fun unnested => any_walk_of_child unnested mem

/-- A constant tree has no decision variables at all. -/
theorem readable (excused : e.Excused faults ranks) (constant : e.isConstant = true) :
    e.Readable faults ranks :=
  ⟨excused.formed, excused.suited, .inl (mentionsReference_of_isConstant constant)⟩

theorem items {body : Expr} (excused : (sumOver body gens).Excused faults ranks) :
    ItemsReadable faults ranks gens where
  layered := (allFormed_iff.mp excused.formed).1
  formed e mem := excused.formed.child (mem_cons_of_mem _ mem)
  suited := excused.suited.imp_left fun suited => by
    rw [isSuited, Bool.and_eq_true] at suited
    exact suited.1
  closed := excused.closed.imp_left fun closed => by
    rw [hasOpenCondition, any_walk, Bool.or_eq_false_iff] at closed
    exact closed.1

theorem body {body : Expr} (excused : (sumOver body gens).Excused faults ranks) :
    body.Excused faults (ranks.behind gens) where
  formed := excused.formed.child mem_cons_self
  suited := excused.suited.imp_left fun suited => by
    rw [isSuited, Bool.and_eq_true] at suited
    exact suited.2
  closed := excused.closed.imp_left fun closed => any_walk_of_child closed mem_cons_self
  unnested := excused.unnested.imp_left
    fun unnested => any_walk_of_child unnested mem_cons_self

end Excused

/-! ## Replacing wildcards -/

/-- A tree that arises from another by replacement of wildcards is as well formed and as well
suited, and has no more open conditions and nested wildcards. -/
structure Resembles (ranks : Ranks) (e e' : Expr) : Prop where
  formed : ∀ names, e.AllFormed names → e'.AllFormed names
  suited : e.isSuited ranks = true → e'.isSuited ranks = true
  closed : e.hasOpenCondition = false → e'.hasOpenCondition = false
  unnested : e.hasNestedWildcard = false → e'.hasNestedWildcard = false
  mentions : e.mentionsReference = false → e'.mentionsReference = false
  rank : e'.rank ranks = e.rank ranks
  keyRank : e'.keyRank ranks = e.keyRank ranks
  filled : e'.isWildcard = false
  symbol : ∀ name, e = .symbol name → e' = .symbol name

theorem Resembles.excused (resembles : Resembles ranks e e') (excused : e.Excused faults ranks) :
    e'.Excused faults ranks where
  formed := resembles.formed _ excused.formed
  suited := excused.suited.imp_left resembles.suited
  closed := excused.closed.imp_left resembles.closed
  unnested := excused.unnested.imp_left resembles.unnested

theorem Resembles.refl (filled : e.isWildcard = false) : Resembles ranks e e :=
  ⟨fun _ => id, id, id, id, id, rfl, rfl, filled, fun _ => id⟩

theorem resembles_literal {value : Value} (isKey : value.isKey = true) :
    Resembles ranks wildcard (literal value) where
  formed _ _ := allFormed_iff.mpr ⟨Value.layered_of_isKey isKey, by simp [children]⟩
  suited _ := rfl
  closed _ := rfl
  unnested _ := rfl
  mentions _ := rfl
  rank := Value.rank_eq_zero isKey
  keyRank := Value.rank_eq_zero isKey
  filled := rfl
  symbol _ same := by cases same

/-- What is said of all nodes carries over from the root and the subtrees. -/
theorem any_walk_of_children {p : Expr → Bool} (root : p e = false → p e' = false)
    (related : Forall₂ (fun c c' : Expr => c.walk.any p = false → c'.walk.any p = false)
      e.children e'.children) (none : e.walk.any p = false) : e'.walk.any p = false := by
  rw [any_walk, Bool.or_eq_false_iff, any_eq_false] at none ⊢
  refine ⟨root none.1, fun c' inside => Bool.eq_false_iff.mp ?_⟩
  obtain ⟨c, inside', carries⟩ := exists_of_forall₂ related.flip inside
  exact carries (Bool.eq_false_iff.mpr (none.2 c inside'))

/-- A node whose subtrees were replaced, and that stayed the same otherwise. -/
theorem Resembles.of_children (related : Forall₂ (Resembles ranks) e.children e'.children)
    (formed : ∀ names, e.IsFormed names → e'.IsFormed names)
    (suited : e.isSuited ranks = true → e'.isSuited ranks = true)
    (closed : e.isOpenCondition = false → e'.isOpenCondition = false)
    (unnested : e.isNestedWildcard = false → e'.isNestedWildcard = false)
    (reference : e'.isReference = e.isReference) (rank : e'.rank ranks = e.rank ranks)
    (keyRank : e'.keyRank ranks = e.keyRank ranks) (filled : e'.isWildcard = false)
    (unnamed : e.symbol? = none) : Resembles ranks e e' where
  formed names all := by
    rw [allFormed_iff] at all ⊢
    refine ⟨formed names all.1, fun c' inside => ?_⟩
    obtain ⟨c, inside', resembles⟩ := exists_of_forall₂ related.flip inside
    exact resembles.formed names (all.2 c inside')
  suited := suited
  closed := any_walk_of_children closed (related.imp fun _ _ resembles => resembles.closed)
  unnested := any_walk_of_children unnested (related.imp fun _ _ resembles => resembles.unnested)
  mentions := any_walk_of_children (fun none => reference.trans none)
    (related.imp fun _ _ resembles => resembles.mentions)
  rank := rank
  keyRank := keyRank
  filled := filled
  symbol _ same := by rw [same] at unnamed; cases unnamed

theorem areSuited_of_resembles {new : List Expr}
    (related : Forall₂ (Resembles ranks) trees new) (suited : areSuited ranks trees = true) :
    areSuited ranks new = true := by
  rw [areSuited_iff] at suited ⊢
  intro e' mem
  obtain ⟨e, inside, resembles⟩ := exists_of_forall₂ related.flip mem
  exact resembles.suited (suited e inside)

/-- Nothing is asked of a container whose key is no wildcard. -/
theorem conditions_of_filled {container key : Expr} {dot : Bool} (filled : key.isWildcard = false) :
    (lookup container key dot).isOpenCondition = false
      ∧ (lookup container key dot).isNestedWildcard = false := by
  cases key with
  | wildcard => cases filled
  | _ => exact ⟨rfl, rfl⟩

section Substitution

variable (keys : ∀ v ∈ values, v.isKey = true)

include keys

theorem resembles_of_place (place : Place values (Resembles ranks) e e') :
    Resembles ranks e e' := by
  rcases place with ⟨rfl, value, mem, rfl⟩ | resembles
  · exact resembles_literal (keys value mem)
  · exact resembles

/-- Replacing wildcards by keys keeps the shape of a tree. -/
theorem replacing_resembles : Replacing values (Resembles ranks) where
  kept e kept := .refl (by cases e <;> first | rfl | cases kept)
  renewed {e e'} renewed := by
    have related : Forall₂ (Resembles ranks) e.children e'.children :=
      renewed.children.imp fun _ _ => resembles_of_place keys
    cases renewed with
    | ref =>
      refine .of_children related (fun _ => id) (fun suited => ?_) id id rfl rfl rfl rfl rfl
      simp only [isSuited, Bool.and_eq_true, all_eq_true, beq_iff_eq] at suited ⊢
      refine ⟨⟨suited.1.1, areSuited_of_resembles related suited.1.2⟩, fun e' mem => ?_⟩
      obtain ⟨e, inside, resembles⟩ := exists_of_forall₂ related.flip mem
      rw [resembles.rank]
      exact suited.2 e inside
    | lookup inner place =>
      have isKey := resembles_of_place keys place
      refine .of_children related (fun names formed isDotted => ?_) (fun suited => ?_)
        (fun _ => (conditions_of_filled isKey.filled).1)
        (fun _ => (conditions_of_filled isKey.filled).2) rfl (congrArg (· - 1) inner.rank)
        (congrArg (· - 1) inner.rank) rfl rfl
      · obtain ⟨name, isName, silent⟩ := formed isDotted
        exact ⟨name, isKey.symbol name isName, silent⟩
      simp only [isSuited, Bool.and_eq_true, beq_iff_eq] at suited ⊢
      exact ⟨⟨inner.suited suited.1.1, isKey.suited suited.1.2⟩, isKey.keyRank.trans suited.2⟩
    | arith first second | compare first second | range first second =>
      refine .of_children related (fun _ => id) (fun suited => ?_) id id rfl rfl rfl rfl rfl
      rw [isSuited, Bool.and_eq_true] at suited ⊢
      exact suited.imp first.suited second.suited
    | negate inner | abs inner =>
      exact .of_children related (fun _ => id) inner.suited id id rfl rfl rfl rfl rfl
    | piecewise inner =>
      refine .of_children related (fun _ => id) (fun suited => ?_) id id rfl rfl rfl rfl rfl
      rw [isSuited, Bool.and_eq_true] at suited ⊢
      exact suited.imp_left inner.suited
    | aggregate =>
      exact .of_children related (fun _ => id)
        (areSuited_of_resembles related) id id rfl rfl rfl rfl
        rfl
    | ifThenElse first second third =>
      refine .of_children related (fun _ => id) (fun suited => ?_) id id rfl
        (congrArg₂ max second.rank third.rank) (congrArg₂ max second.rank third.rank) rfl rfl
      simp only [isSuited, Bool.and_eq_true] at suited ⊢
      exact suited.imp (And.imp first.suited second.suited) third.suited

end Substitution

theorem substitute_ends (keys : ∀ v ∈ values, v.isKey = true)
    (enough : e.needs ≤ values.length ∨ faults.nestedWildcard) :
    Ends (Resembles ranks e) faults.Explain (e.substitute values) :=
  (failsOnly_substitute ⟨rfl, .inl rfl⟩
    (enough.imp_right fun nested => ⟨nested, nested⟩)).ends
      fun _ => substitute_replacing (replacing_resembles keys)

/-! ## Carriers -/

theorem needs_le_of_child (plain : e.isKept = false) {c : Expr} (mem : c ∈ e.children) :
    c.needs ≤ e.needs := by
  revert c
  induction e using induction_on_kinds with
  | wildcard => exact fun mem => nomatch mem
  | kept e kept => rw [kept] at plain; cases plain
  | ref =>
    exact fun mem => needsAll_le_iff.mp (Nat.le_max_right _ _) _ mem
  | lookup =>
    intro c mem
    simp only [children, mem_cons, not_mem_nil, or_false] at mem
    rw [needs]
    rcases mem with rfl | rfl <;> omega
  | joint e joint => exact needsAll_le_iff.mp (needs_of_isJoint joint).ge _

/-- The carriers of a tree have its faults, and need no more values. -/
theorem Excused.carriers_excused (excused : e.Excused faults ranks)
    {inChain : Bool} {found : List Expr}
    (listed : e.carriers inChain = .ok found) :
    ∀ c ∈ found, c.Excused faults ranks ∧ c.needs ≤ e.needs := by
  intro c mem
  refine carriers_forall
    (P := fun e c => e.Excused faults ranks → c.Excused faults ranks ∧ c.needs ≤ e.needs)
    (fun _ _ _ excused => ⟨excused, Nat.le_refl _⟩)
    (fun _ _ _ _ excused => ⟨excused, Nat.le_refl _⟩) ?_ e listed c mem excused
  intro e child c plain mem inner excused
  have within := inner (excused.child (by cases e <;> first | rfl | cases plain) mem)
  exact within.imp_right fun within => Nat.le_trans within (needs_le_of_child plain mem)

/-- How many values a tree needs: none of its carriers has more wildcards, and neither has the chain
that it belongs to. -/
def Counted (e : Expr) : Prop :=
  ∀ {inChain : Bool} {found : List Expr} {bound : Nat}, e.carriers inChain = .ok found →
    (∀ c ∈ found, c.wildcardCount ≤ bound) →
    (if inChain then e.wildcardSteps.length else 0) ≤ bound → e.needs ≤ bound

theorem needs_le_of_carriersOfAll {bound : Nat} (each : ∀ e ∈ trees, Counted e)
    (listed : carriersOfAll trees = .ok found) (counts : ∀ c ∈ found, c.wildcardCount ≤ bound) :
    ∀ e ∈ trees, e.needs ≤ bound := by
  rw [carriersOfAll_eq_mapM] at listed
  obtain ⟨parts, separate, done⟩ := bind_eq_ok.mp listed
  cases done
  intro e mem
  obtain ⟨part, known, single⟩ :=
    exists_of_forall₂ (forall₂_of_mapM separate fun _ _ _ single => single) mem
  exact each e mem single (fun c inside => counts c (mem_flatten.mpr ⟨part, known, inside⟩))
    (Nat.zero_le _)

theorem counted (e : Expr) : Counted e := by
  induction e using induction_on_kinds with
  | wildcard => exact fun _ _ _ => Nat.zero_le _
  | kept e kept =>
    intro inChain found bound _ _ _
    rw [needs_of_isKept kept]
    exact Nat.zero_le bound
  | ref _ indices ih =>
    intro inChain found bound listed counts _
    obtain ⟨inner, listed', done⟩ := bind_eq_ok.mp listed
    cases done
    rw [carriersOfIndices_eq_carriersOfAll] at listed'
    have inside : (∀ c ∈ inner, c.wildcardCount ≤ bound) → needsAll indices ≤ bound := by
      refine fun counts => needsAll_le_iff.mpr fun index mem => ?_
      cases index with
      | wildcard => exact Nat.zero_le bound
      | _ =>
        exact needs_le_of_carriersOfAll (fun e mem => ih e (mem_filter.mp mem).1) listed' counts _
          (mem_filter.mpr ⟨mem, rfl⟩)
    rw [needs]
    split at counts
    case isTrue =>
      rw [forall_mem_cons] at counts
      exact Nat.max_le.mpr ⟨counts.1, inside counts.2⟩
    case isFalse none =>
      have zeroCount : indices.countP isWildcard = 0 :=
        countP_eq_zero.mpr fun index mem wild => none (any_eq_true.mpr ⟨index, mem, wild⟩)
      rw [zeroCount]
      exact Nat.max_le.mpr ⟨Nat.zero_le _, inside counts⟩
  | lookup container key dot inner outer =>
    intro inChain found bound listed counts chain
    obtain ⟨root, first, listed⟩ := bind_eq_ok.mp listed
    have steps := length_wildcardSteps container key dot
    -- the chain itself is a carrier, unless it is part of a longer one
    have whole : ∀ {keys : List Expr}, (if !inChain
        && !(lookup container key dot).wildcardSteps.isEmpty then
          lookup container key dot :: (root ++ keys) else root ++ keys) = found →
        ((∀ c ∈ keys, c.wildcardCount ≤ bound) → key.needs ≤ bound) →
        (lookup container key dot).needs ≤ bound := by
      rintro keys rfl behind
      have both : (lookup container key dot).wildcardSteps.length ≤ bound
          ∧ ∀ c ∈ root ++ keys, c.wildcardCount ≤ bound := by
        split at counts
        · exact forall_mem_cons.mp counts
        case isFalse none =>
          refine ⟨?_, counts⟩
          cases inChain with
          | true => exact chain
          | false => simp_all
      rw [forall_mem_append] at both
      have inner' := inner first both.2.1 (by simp only [if_true]; omega)
      exact Nat.max_le.mpr ⟨both.1, Nat.max_le.mpr ⟨inner', behind both.2.2⟩⟩
    dsimp only at listed
    split at listed
    · cases listed
      exact @whole [] rfl fun _ => Nat.zero_le _
    · obtain ⟨keys, second, done⟩ := bind_eq_ok.mp listed
      cases done
      exact whole rfl fun counts => outer second counts (Nat.zero_le _)
  | joint e joint ih =>
    intro inChain found bound listed counts _
    rw [carriers_of_isJoint joint] at listed
    rw [needs_of_isJoint joint, needsAll_le_iff]
    exact needs_le_of_carriersOfAll ih listed counts

end Expr

/-! ## References -/

/-- The index values of all declared instances can be keys. -/
def Model.Keyed (m : Model) : Prop := ∀ v ∈ m.columns, v.key.isKey = true

theorem Model.Keyed.tuples {m : Model} (keyed : m.Keyed) (coherent : m.Coherent) {family : String}
    {tuples : List (List Value)} (known : m.family? family = some tuples) :
    ∀ index ∈ tuples, ∀ v ∈ index, v.isKey = true := by
  intro index mem
  obtain ⟨entry, first, rfl⟩ := Option.map_eq_some_iff.mp known
  obtain ⟨v, inside, key⟩ := coherent.tuples entry (mem_of_find?_eq_some first) index mem
  have isKey := keyed v inside
  rw [key] at isKey
  exact Value.areKeys_iff.mp isKey

section References

variable {faults : Faults} {ranks : Ranks} {ctx : Context} {name : Value} {indices : List Expr}

theorem resolveIndex_ends {reference index : Expr}
    (named : reference.text?.isSome = true ∨ faults.unsuited) (excused : index.Excused faults ranks)
    (fits : ctx.Fits faults ranks) :
    Ends (faults.Fits (index.rank ranks)) faults.Explain
      (resolveIndex reference name ctx index) := by
  unfold resolveIndex
  split
  · exact Faults.ends_raise_of named rfl fun text isText => by simp [Cause.message?, isText]
  · exact fits.resolve_ends _
  · split
    case isTrue constant => exact index.evaluate_ends (excused.readable constant) fits
    case isFalse =>
      exact Faults.ends_raise_of excused.named rfl
        fun text isText => by simp [Cause.message?, isText]

section

variable (excused : (Expr.ref name indices).Excused faults ranks)
include excused

theorem index_isKey {index : Expr} (mem : index ∈ indices) {v : Value}
    (isFit : faults.Fits (index.rank ranks) v) :
    v.isKey = true ∨ faults.unsuited := by
  rcases excused.suited with suited | fault
  · simp only [Expr.isSuited, Bool.and_eq_true, all_eq_true, beq_iff_eq] at suited
    rw [suited.2 index mem] at isFit
    exact isFit.isKey
  · exact .inr fault

theorem resolveIndices_ends (fits : ctx.Fits faults ranks) :
    Ends (fun values => Value.areKeys values = true ∨ faults.unsuited) faults.Explain
      (resolveIndices name indices ctx) := by
  have each : ∀ index ∈ indices, Ends (fun v => v.isKey = true ∨ faults.unsuited) faults.Explain
      (resolveIndex (.ref name indices) name ctx index) := fun index mem =>
    (resolveIndex_ends excused.named (excused.child rfl mem) fits).mono
      (fun v isFit => index_isKey excused mem isFit) fun _ => id
  refine (Ends.mapM each).mono (fun values related => ?_) fun _ => id
  by_cases fault : faults.unsuited
  · exact .inr fault
  · refine .inl (Value.areKeys_iff.mpr fun v mem => ?_)
    obtain ⟨index, -, isKey⟩ := exists_of_forall₂ related.flip mem
    exact isKey.resolve_right fault

theorem isText_of_suited :
    (∃ family, name = .str family) ∨ faults.unsuited := by
  refine excused.suited.imp_left fun suited => ?_
  simp only [Expr.isSuited, Bool.and_eq_true] at suited
  cases name with
  | str family => exact ⟨family, rfl⟩
  | _ => cases suited.1.1

end

theorem declares_ends (m : Model) (excused : (Expr.ref name indices).Excused faults ranks)
    {index : List Value} (keys : Value.areKeys index = true ∨ faults.unsuited) :
    Ends (fun _ => True) faults.Explain (m.declares name index) := by
  unfold Model.declares
  split
  case isTrue illegal =>
    rcases isText_of_suited excused with ⟨family, rfl⟩ | fault
    · rcases keys with keys | fault
      · simp [Value.isKey, keys] at illegal
      · exact fault
    · exact fault
  case isFalse => split <;> exact trivial

theorem resolveReference_ends (m : Model) (excused : (Expr.ref name indices).Excused faults ranks)
    (fits : ctx.Fits faults ranks) :
    Ends (fun _ => True) faults.Explain (resolveReference (some m) name indices ctx) := by
  refine (resolveIndices_ends excused fits).bind fun index _ keys => ?_
  refine (declares_ends m excused keys).bind fun declared _ _ => ?_
  split
  · exact trivial
  · split
    · split
      · exact Faults.ends_raise rfl (.inl rfl)
      · exact Faults.ends_raise rfl (.inl rfl)
    · exact Faults.ends_raise rfl (.inl rfl)

end References

/-! ## Roles -/

namespace Wildcard

variable {faults : Faults} {ranks : Ranks} {ctx : Context} {m : Model} {name : Value}
  {indices : List Expr} {assigned : List Value}

theorem mem_of_mem_distinct {v : Value} (mem : v ∈ distinct values) : v ∈ values := by
  refine foldlRecOn (motive := fun done => ∀ w ∈ done, w ∈ values) values _ (by simp)
    (fun done known w inside => ?_) v mem
  split
  · exact known
  · exact forall_mem_append.mpr ⟨known, forall_mem_singleton.mpr inside⟩

/-- At a reference, a role takes index values of declared instances. -/
theorem familyDomain_ends (coherent : m.Coherent) (keyed : m.Keyed)
    (excused : (Expr.ref name indices).Excused faults ranks) (fits : ctx.Fits faults ranks)
    (role : Nat) :
    Ends (fun values => ∀ v ∈ values, v.isKey = true) faults.Explain
      (familyDomain (some m) ctx role assigned name indices) := by
  have refused : Ends (fun tuples : List (List Value) => ∀ index ∈ tuples, ∀ v ∈ index,
      v.isKey = true) faults.Explain (raise (.wildcardFamily (.ref name indices) name)) :=
    Faults.ends_raise_of excused.named rfl fun text isText => by simp [Cause.message?, isText]
  have listed : ∀ tuples : List (List Value), (∀ index ∈ tuples, ∀ v ∈ index, v.isKey = true) →
      Ends (fun values => ∀ v ∈ values, v.isKey = true) faults.Explain
        (indexPattern (.ref name indices) name ctx role assigned indices 0 0 >>= fun found =>
          pure (distinct (tuples.filterMap fun index =>
            if matchesPattern found.1 index then found.2.bind (index[·]?) else none))) := by
    intro tuples keys
    have pattern : FailsOnly faults.Explain
        (indexPattern (.ref name indices) name ctx role assigned indices 0 0) :=
      failsOnly_indexPattern (fun index mem =>
        (resolveIndex_ends excused.named (excused.child rfl mem) fits).failsOnly) 0 0
    refine (pattern.ends fun _ _ => trivial).bind fun found _ _ v mem => ?_
    obtain ⟨index, inside, isPlace⟩ := mem_filterMap.mp (mem_of_mem_distinct mem)
    split at isPlace
    · obtain ⟨k, -, isItem⟩ := Option.bind_eq_some_iff.mp isPlace
      exact keys index inside v (mem_of_getElem? isItem)
    · cases isPlace
  unfold familyDomain
  cases name with
  | str =>
    dsimp only
    split
    case h_1 tuples known => exact listed tuples (keyed.tuples coherent known)
    case h_2 => exact refused.bind fun tuples _ => listed tuples
  | _ =>
    have fault : faults.unsuited := (isText_of_suited excused).resolve_left (by simp)
    dsimp only
    split
    · exact refused.bind fun tuples _ => listed tuples
    · exact fault

/-- The steps of a chain with a wildcard key. The container of each has the wildcards before it. -/
theorem step_of_getElem? {e step : Expr} {k : Nat} (found : e.wildcardSteps[k]? = some step) :
    ∃ container dot, step = .lookup container .wildcard dot ∧ container.wildcardSteps.length = k
      ∧ ∀ {faults ranks}, e.Excused faults ranks → step.Excused faults ranks := by
  match e with
  | .lookup container key dot =>
    rw [Expr.wildcardSteps] at found
    rcases Nat.lt_or_ge k container.wildcardSteps.length with inside | beyond
    · rw [getElem?_append_left inside] at found
      obtain ⟨inner, dot', isStep, length, excuses⟩ := step_of_getElem? found
      refine ⟨inner, dot', isStep, length, fun excused => ?_⟩
      exact excuses (excused.child rfl (by simp [Expr.children]))
    · rw [getElem?_append_right beyond] at found
      cases key with
      | wildcard =>
        obtain ⟨last, isLast⟩ := List.getElem?_eq_some_iff.mp found
        simp only [Expr.isWildcard, if_true, length_singleton] at last
        simp only [Expr.isWildcard, if_true, getElem_singleton] at isLast
        exact ⟨container, dot, isLast.symm, by omega, fun excused => isLast ▸ excused⟩
      | _ => cases found
  | .wildcard | .literal _ | .symbol _ | .ref _ _ | .arith _ _ _ | .negate _ | .compare _ _ _
  | .range _ _ | .sum _ | .sumOver _ _ | .each _ | .abs _ | .aggregate _ _ | .ifThenElse _ _ _
  | .piecewise _ _ _ _ => cases found

/-- At a chain, a role takes the keys or positions of a container. -/
theorem containerDomain_ends {chain : Expr} (excused : chain.Excused faults ranks)
    (isChain : chain.isReference = false) (taking : assigned.length < chain.wildcardCount)
    (keys : ∀ v ∈ assigned, v.isKey = true) (fits : ctx.Fits faults ranks) :
    Ends (fun values => ∀ v ∈ values, v.isKey = true) faults.Explain
      (containerDomain ctx assigned.length assigned chain) := by
  have length : chain.wildcardCount = chain.wildcardSteps.length := by
    cases chain with
    | ref => cases isChain
    | _ => rfl
  rw [length] at taking
  obtain ⟨container, dot, isStep, before, excuses⟩ :=
    step_of_getElem? (getElem?_eq_getElem taking)
  have step := excuses excused
  rw [isStep] at step
  have inner : container.Excused faults ranks := step.child rfl (by simp [Expr.children])
  have enough : container.needs ≤ assigned.length ∨ faults.nestedWildcard :=
    step.unnested.imp_left fun unnested => by
      rw [Expr.hasNestedWildcard, Expr.any_walk, Bool.or_eq_false_iff] at unnested
      simpa [Expr.isNestedWildcard, before] using unnested.1
  have closed : container.mentionsReference = false ∨ faults.openCondition :=
    step.closed.imp_left fun closed => by
      rw [Expr.hasOpenCondition, Expr.any_walk, Bool.or_eq_false_iff] at closed
      exact closed.1
  unfold containerDomain
  rw [getElem?_eq_getElem taking, isStep]
  dsimp only
  have replaced : Ends (Expr.Resembles ranks container) faults.Explain
    (container.substitute assigned) :=
    Expr.substitute_ends keys enough
  refine replaced.bind fun container' _ resembles => ?_
  have readable : container'.Readable faults ranks :=
    ⟨resembles.formed _ inner.formed, inner.suited.imp_left resembles.suited,
      closed.imp_left resembles.mentions⟩
  refine (container'.evaluate_ends readable fits).bind fun value _ isFit => ?_
  split
  case h_1 entries =>
    obtain ⟨k, within, -⟩ := isFit
    cases within with
    | table keys => exact forall_mem_map.mpr keys
    | key isKey => cases isKey
  case h_2 =>
    split
    · refine (Value.ends_rangeList _ _ _).mono (fun items whole v mem => ?_) fun _ => id
      obtain ⟨n, rfl⟩ := whole v mem
      rfl
    · refine Faults.ends_raise rfl ?_
      rcases excused.named with isChain | fault
      · refine inner.named.imp_left fun isInner => ?_
        obtain ⟨text, isText⟩ := Option.isSome_iff_exists.mp isChain
        obtain ⟨text', isText'⟩ := Option.isSome_iff_exists.mp isInner
        simp [Cause.message?, isText, isText']
      · exact .inr fault

theorem mem_of_mem_intersect {domains : List (List Value)} {v : Value}
    (mem : v ∈ intersect domains) :
    ∃ domain ∈ domains, v ∈ domain := by
  cases domains with
  | nil => cases mem
  | cons first => exact ⟨first, mem_cons_self, mem_of_mem_filter mem⟩

section Roles

variable (coherent : m.Coherent) (keyed : m.Keyed) (fits : ctx.Fits faults ranks)
  {carriers : List Expr} (excused : ∀ c ∈ carriers, c.Excused faults ranks)
include coherent keyed fits excused

theorem roleDomain_ends (keys : ∀ v ∈ assigned, v.isKey = true) :
    Ends (fun values => ∀ v ∈ values, v.isKey = true) faults.Explain
      (roleDomain (some m) ctx carriers assigned) := by
  have shared : ∀ {trees : List Expr} {domains : List (List Value)},
      Forall₂ (fun _ values => ∀ v ∈ values, v.isKey = true) trees domains →
      ∀ v ∈ intersect domains, v.isKey = true := by
    intro trees domains related v mem
    obtain ⟨domain, inside, found⟩ := mem_of_mem_intersect mem
    obtain ⟨-, -, areKeys⟩ := exists_of_forall₂ related.flip inside
    exact areKeys v found
  unfold roleDomain
  dsimp only
  split
  case isTrue none =>
    refine Ends.bind (Ends.mapM fun chain mem => ?_) fun domains _ related => shared related
    obtain ⟨known, takes⟩ := mem_filter.mp mem
    refine containerDomain_ends (excused chain known) ?_ (of_decide_eq_true takes) keys fits
    rw [List.isEmpty_iff] at none
    exact Bool.eq_false_iff.mpr (filter_eq_nil_iff.mp none chain mem)
  case isFalse =>
    refine Ends.bind (Ends.mapM fun reference mem => ?_)
      fun domains _ related => shared related
    have known := (mem_filter.mp (mem_filter.mp mem).1).1
    split
    · exact familyDomain_ends coherent keyed (excused _ known) fits _
    · exact fun v none => absurd none not_mem_nil

end Roles

theorem isDeclared_ends (keys : ∀ v ∈ values, v.isKey = true) {carrier : Expr}
    (excused : carrier.Excused faults ranks)
    (enough : carrier.needs ≤ values.length ∨ faults.nestedWildcard)
    (fits : ctx.Fits faults ranks) :
    Ends (fun _ => True) faults.Explain (isDeclared (some m) ctx values carrier) := by
  have replaced : Ends (Expr.Resembles ranks carrier) faults.Explain (carrier.substitute values) :=
    Expr.substitute_ends keys enough
  refine replaced.bind fun carrier' _ resembles => ?_
  split
  case h_1 name indices =>
    have excused' := resembles.excused excused
    exact (resolveIndices_ends excused' fits).bind fun index _ isIndex =>
      declares_ends m excused' isIndex
  case h_2 => exact trivial

/-- **Expansion.** The instances of a tree have its faults, and expansion fails as these explain. -/
theorem expand_ends (coherent : m.Coherent) (keyed : m.Keyed) (fits : ctx.Fits faults ranks)
    {e : Expr} (excused : e.Excused faults ranks) :
    Ends (fun instances => ∀ e' ∈ instances, e'.Excused faults ranks) faults.Explain
      (expand (some m) ctx e) := by
  have searched : Ends (fun _ => True) faults.Explain (e.carriers false) :=
    (e.failsOnly_carriers ⟨rfl, .inl rfl⟩ false).ends fun _ _ => trivial
  refine searched.bind fun carriers found _ => ?_
  have carried := excused.carriers_excused found
  split
  · exact forall_mem_singleton.mpr excused
  · dsimp only
    have roles : e.needs ≤ carriers.foldl (fun n c => max n c.wildcardCount) 0 :=
      e.counted found (roles_from carriers 0).2.1 (Nat.zero_le _)
    have none : ∀ v ∈ ([] : List Value), v.isKey = true := by simp
    have listed := ends_assignments (fun assigned keys =>
      (roleDomain_ends coherent keyed fits (fun c mem => (carried c mem).1) keys).mono
        (fun values areKeys v mem =>
          forall_mem_append.mpr ⟨keys, forall_mem_singleton.mpr (areKeys v mem)⟩) fun _ => id)
      (carriers.foldl (fun n c => max n c.wildcardCount) 0) none
    refine listed.foldM (fun done known values good => ?_) (by simp)
    obtain ⟨keys, length⟩ := good
    rw [length_nil, Nat.zero_add] at length
    have enough : ∀ c ∈ carriers, c.needs ≤ values.length ∨ faults.nestedWildcard := fun c mem =>
      .inl (length ▸ Nat.le_trans (carried c mem).2 roles)
    have checked : FailsOnly faults.Explain
        (allDeclared (some m) ctx values (carriers.filter Expr.isReference)) :=
      failsOnly_allDeclared fun c mem =>
        have known := (mem_filter.mp mem).1
        (isDeclared_ends keys (carried c known).1 (enough c known) fits).failsOnly
    refine (checked.ends fun _ _ => trivial).bind fun declared _ _ => ?_
    split
    · have replaced : Ends (Expr.Resembles ranks e) faults.Explain (e.substitute values) :=
        Expr.substitute_ends keys (.inl (length ▸ roles))
      refine replaced.bind fun e' _ resembles => ?_
      exact forall_mem_append.mpr
        ⟨known, forall_mem_singleton.mpr (resembles.excused excused)⟩
    · exact known

end Wildcard

end LinearProgram
