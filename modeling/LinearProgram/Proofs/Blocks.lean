import LinearProgram.Proofs.Expansion

/-!
# The steps of one use

An operator draws a number, declares its variables one after the other and then its rows. Each step
extends the block of the use or fails with an excuse.
-/

namespace LinearProgram

open List Linearization

variable {cfg : Config} {u : Use} {start : Model} {parts : List Part} {tags : List Tag}
  {m : Model} {s : Store}

/-! ## The steps of a block -/

namespace Block

theorem knows_part (block : Block cfg u start parts tags m) {part : Part}
    (mem : part ∈ parts) : m.Knows (u.key cfg part) := by
  obtain ⟨x, -, -, adds, keys⟩ := block.added
  obtain ⟨v, inside, key⟩ := mem_map.mp (keys ▸ mem_map_of_mem mem)
  have declared : v ∈ m.columns := by
    rw [adds.columns]
    exact mem_append_right _ inside
  rw [Model.Knows, Model.declared?, find?_isSome]
  refine ⟨v, declared, ?_⟩
  rw [key]
  exact (u.key_equal_key cfg).mpr rfl

theorem knows_start (block : Block cfg u start parts tags m) {key : VarKey}
    (known : start.Knows key) : m.Knows key := by
  obtain ⟨x, -, -, adds, -⟩ := block.added
  exact adds.knows known

theorem avoids (block : Block cfg u start parts tags m) {part : Part} (mem : part ∈ parts)
    {key : VarKey} (known : start.Knows key) : (u.key cfg part).equal key = false := by
  have fresh := find?_eq_none.mp (block.fresh part mem)
  refine VarKey.numbered_ne_of_declared (start.columns.map (·.key)) ?_ ?_
  · intro k declared
    obtain ⟨v, inside, rfl⟩ := mem_map.mp declared
    exact Bool.eq_false_iff.mpr (fresh v inside)
  · obtain ⟨v, inside, same⟩ := find?_isSome.mp known
    exact ⟨v.key, mem_map_of_mem inside, same⟩

/-- The number of a use is new, so the block starts with nothing declared. -/
theorem start_of_ready (ready : s.model.Ready cfg) (o : Operator) :
    Grows cfg (nextFamily cfg o.word) s fun use m =>
      ∃ n, use = (Use.family cfg ⟨o, n⟩, n) ∧ Block cfg ⟨o, n⟩ s.model [] [] m := by
  refine ⟨_, rfl, ?_⟩
  have reached : ∀ u' : Use, s.model.Reached cfg u' →
      Model.Reached cfg { s.model with
        counters := Model.setCounter (Use.family cfg ⟨o, 0⟩)
          (s.model.counter (Use.family cfg ⟨o, 0⟩) + 1) s.model.counters } u' := fun u' known =>
    Nat.le_trans known (Assembly.counter_le_setCounter s.model _ _)
  have other : ∀ u' : Use, s.model.Reached cfg u' →
      u' ≠ ⟨o, s.model.counter (Use.family cfg ⟨o, 0⟩) + 1⟩ := by
    rintro u' known rfl
    exact absurd known (Nat.not_succ_le_self _)
  refine ⟨⟨ready.coherent.inhabited, ready.coherent.tuples, ready.coherent.rows⟩,
    ready.registered.with_same rfl rfl rfl rfl rfl, ?_,
    (Model.Adds.of_same _).numbered ready.numbered ?_ ?_ (by simp) (by simp), by simp,
    ⟨⟨_, [], []⟩, rfl, ⟨by simp, by simp⟩, Model.Adds.of_same _, rfl⟩⟩
  · show _ ≤ _
    rw [Assembly.counter_setCounter]
    exact Nat.le_of_eq (if_pos rfl).symm
  · exact fun u' part known => ⟨reached u' known, fun same => absurd same (other u' known)⟩
  · exact fun u' tag known => ⟨reached u' known, fun same => absurd same (other u' known)⟩

theorem introduce_clash {family : String} {index : List Nat} {kind : VariableKind}
    {lower upper : Option Number} {s' : Store} {e : Error}
    (failed : (introduce cfg family index kind lower upper).run s = (.error e, s')) :
    s'.model = s.model ∧ ∀ name, e.clash? = some name →
      name = (VarKey.numbered family index).text
        ∧ ∀ v : Variable, v.key = VarKey.numbered family index → v.kind = kind →
          ¬ s.model.Accepts cfg v := by
  obtain ⟨before, after, entry, inner, exit⟩ := Assembly.run_transaction_error failed
  have computed : ∀ {α : Type} {result : Except Error α} {P : String → Prop}, ClashFree result →
      result = .error e → after = before →
      s'.model = s.model ∧ ∀ name, e.clash? = some name → P name := by
    rintro α result P free isError rfl
    refine ⟨exit ⟨after.log, rfl⟩, fun name clash => ?_⟩
    rw [free.of_error isError] at clash
    cases clash
  simp only [Assembly.run_bind, Assembly.run_lift] at inner
  cases isLower : checkGiven lower with
  | error =>
    rw [isLower] at inner
    cases inner
    exact computed (plain_checkGiven lower).clashFree isLower rfl
  | ok low =>
    cases isUpper : checkGiven upper with
    | error =>
      simp only [isLower, isUpper] at inner
      cases inner
      exact computed (plain_checkGiven upper).clashFree isUpper rfl
    | ok high =>
      simp only [isLower, isUpper] at inner
      cases checked : Bound.check (VarKey.text ⟨family, index.map fun (n : Nat) => .int n⟩)
          kind low high with
      | error e' =>
        rw [checked] at inner
        cases inner
        exact computed (Bound.plain_check _ kind low high).clashFree checked rfl
      | ok _ =>
        rw [checked] at inner
        dsimp only at inner
        split at inner
        case h_1 => cases inner
        case h_2 e' failing added =>
          cases inner
          refine ⟨?_, fun name clash => ?_⟩
          · rcases Assembly.addVariable_cases cfg _ kind low high .none true before with
              ⟨e', log, ran⟩ | ⟨v, log, ran, -⟩
            · have same := added.symm.trans ran
              cases same
              exact exit ⟨log, rfl⟩
            · have same := added.symm.trans ran
              cases same
          · rw [← entry]
            exact Assembly.addVariable_clash added clash

theorem addPart (block : Block cfg u start parts tags m) {part : Part} {v : Variable}
    (accepted : m.Accepts cfg v) (key : v.key = u.key cfg part) (kind : v.kind = u.kind part)
    (auxiliary : v.auxiliary = true) :
    Block cfg u start (parts ++ [part]) tags (m.addVariable v) := by
  have adds' := Model.Adds.addVariable m v
  obtain ⟨x, isUse, proper, adds, keys⟩ := block.added
  refine ⟨block.coherent.addVariable v, block.registered.addVariable accepted, block.reached,
    adds'.numbered block.numbered ?_ (fun _ _ => id) ?_ (by simp), ?_, ?_⟩
  · rintro u' part' ⟨known, mine⟩
    exact ⟨known, fun same => mem_append_left _ (mine same)⟩
  · intro w new _
    rw [mem_singleton.mp new]
    exact ⟨u, part, ⟨block.reached, fun _ => mem_append_right _ mem_cons_self⟩, key, kind⟩
  · intro part' mem
    rcases mem_append.mp mem with old | new
    · exact block.fresh part' old
    · rw [mem_singleton.mp new]
      have fresh := accepted.fresh
      rw [key, Model.declared?, adds.columns, find?_append, Option.or_eq_none_iff] at fresh
      exact fresh.1
  · have more := adds.trans adds'
    rw [append_nil] at more
    refine ⟨{ x with columns := x.columns ++ [v] }, isUse, ⟨?_, ?_⟩, more, ?_⟩
    · intro w mem
      rcases mem_append.mp mem with old | new
      · exact proper.columns w old
      · rw [mem_singleton.mp new]
        exact ⟨auxiliary, part, by rw [isUse, key]⟩
    · intro c mem
      obtain ⟨named, grounded, w, inside, mentions⟩ := proper.rows c mem
      exact ⟨named, grounded.mono fun k => adds'.knows, w, mem_append_left _ inside, mentions⟩
    · rw [map_append, map_append, keys, map_singleton, map_singleton, key]

/-- One more part, or an error that is excused. -/
theorem introduce (block : Block cfg u start parts tags s.model) {part : Part}
    (unused : part ∉ parts) (lower upper : Option Number) :
    Grows cfg (introduce cfg (u.partFamily cfg part) (u.partIndex part) (u.kind part)
      lower upper) s fun p m =>
        p = Polynomial.ofKey (u.key cfg part)
          ∧ Block cfg u start (parts ++ [part]) tags m := by
  unfold Grows
  split
  case h_1 p s' ran =>
    obtain ⟨v, key, kind, -, -, auxiliary, rfl, accepted, model⟩ := introduce_ok ran
    rw [model]
    exact ⟨congrArg Polynomial.ofKey key, block.addPart accepted key kind auxiliary⟩
  case h_2 e s' ran =>
    obtain ⟨same, clashes⟩ := introduce_clash ran
    rw [same]
    rintro rfl tidy short name clash
    obtain ⟨isText, refused⟩ := clashes name clash
    by_contra fits
    -- a part that is written short enough would have been accepted
    let v : Variable :=
      { key := u.key {} part, kind := u.kind part, lower := lower, upper := upper,
        name := Name.ofKey 255 (u.key {} part), description := .none, auxiliary := true }
    refine refused v rfl rfl ?_
    refine Model.accepts_part block.registered block.numbered tidy short
      (fun used => unused (used.2 rfl)) ?_ rfl rfl rfl
    rw [isText] at fits
    exact Nat.le_of_not_lt fits

/-- What a row of a use has to be: under its tag, over what was there and the parts so far, and with
a part in it. A row without variables is never stored. -/
structure RowFits (cfg : Config) (u : Use) (start : Model) (parts : List Part)
    (row : Except Error Row) (tag : Tag) : Prop where
  clashFree : ClashFree row
  tagged : ∀ r, row = .ok r → r.tag = tag.text
  known : ∀ r, row = .ok r →
    r.lhs.Over fun key => start.Knows key ∨ ∃ part ∈ parts, key = u.key cfg part
  mentions : ∀ r, row = .ok r →
    r.lhs.isConstant = true ∨ ∃ part ∈ parts, r.lhs.Mentions (u.key cfg part)

/-- A row that is stored has variables, one of which is a part of the use. -/
theorem RowFits.exists_part {row : Except Error Row} {tag : Tag}
    (fits : RowFits cfg u start parts row tag) {r : Row} (isRow : row = .ok r)
    {difference : Polynomial} (minus : r.lhs.sub (Polynomial.const r.rhs) = .ok difference)
    (nonconstant : difference.isConstant = false) :
    ∃ part ∈ parts, r.lhs.Mentions (u.key cfg part) := by
  rcases fits.mentions r isRow with constant | mentions
  · -- a row without variables differs from its right side by a constant
    have none : difference.Over fun _ => False :=
      (Polynomial.over_of_isConstant constant).sub (Polynomial.over_const _ _) minus
    rw [Polynomial.isConstant, isEmpty_eq_false_iff] at nonconstant
    obtain ⟨term, mem⟩ := exists_mem_of_ne_nil _ nonconstant
    exact (none term mem).elim
  · exact mentions

theorem addConstraint_clash {rawName : String} {lhs rhs : Polynomial} {rel : Relation}
    {desc : Value} {s' : Store} {e : Error}
    (failed : (Assembly.addConstraint cfg (.str rawName) lhs rel rhs desc).run s
      = (.error e, s')) :
    s'.model = s.model ∧ ∀ name, e.clash? = some name →
      name = rawName ∧ ∀ c : Constraint, c.rawName = rawName → ¬ s.model.AcceptsRow cfg c := by
  unfold Assembly.addConstraint at failed
  simp only [Assembly.run_bind, Assembly.run_lift] at failed
  cases minus : lhs.sub rhs with
  | error =>
    rw [minus] at failed
    cases failed
    refine ⟨rfl, fun name clash => ?_⟩
    rw [(lhs.plain_sub rhs).clashFree.of_error minus] at clash
    cases clash
  | ok =>
    simp only [minus] at failed
    split at failed
    · split at failed
      · cases failed
      · cases failed
        exact ⟨rfl, fun name clash => by cases clash⟩
    · rw [Assembly.run_bind] at failed
      split at failed
      · cases failed
      case h_2 e' failing stored =>
        cases failed
        exact Assembly.storeConstraint_clash stored

theorem more_tags (block : Block cfg u start parts tags m) (more : List Tag) :
    Block cfg u start parts (tags ++ more) m := by
  refine { block with
    numbered := (Model.Adds.of_same m.counters).numbered block.numbered (fun _ _ => id) ?_
      (by simp) (by simp) }
  rintro u' tag ⟨known, mine⟩
  exact ⟨known, fun same => mem_append_left _ (mine same)⟩

theorem addRow (block : Block cfg u start parts tags m) {row : Except Error Row} {tag : Tag}
    (fits : RowFits cfg u start parts row tag) {r : Row} (isRow : row = .ok r)
    {difference : Polynomial} (minus : r.lhs.sub (Polynomial.const r.rhs) = .ok difference)
    (nonconstant : difference.isConstant = false) {c : Constraint} {m' : Model}
    (stored : Assembly.Stored cfg (.str (u.rowName cfg tag)) r.lhs (Polynomial.const r.rhs)
      r.relation .none m c m')
    (coherent : m'.Coherent) (registered : m'.Registered cfg) :
    Block cfg u start parts (tags ++ [tag]) m' := by
  obtain ⟨counters, model⟩ := stored.model
  have reached : ∀ u', m.Reached cfg u' → m'.Reached cfg u' :=
    fun u' known => Nat.le_trans known (stored.counters _)
  have rawName : c.rawName = u.rowName cfg tag := by
    rcases stored.rawName with given | ⟨none, -⟩
    · exact (Value.str.inj given).symm
    · cases none
  have adds' : m.Adds [] [c] m' := by
    rw [model]
    exact Model.Adds.addConstraint m c counters
  obtain ⟨x, isUse, proper, adds, keys⟩ := block.added
  refine ⟨coherent, registered, reached u block.reached,
    adds'.numbered block.numbered ?_ ?_ (by simp) ?_, block.fresh, ?_⟩
  · exact fun u' part known => ⟨reached u' known.1, known.2⟩
  · rintro u' tag' ⟨known, mine⟩
    exact ⟨reached u' known, fun same => mem_append_left _ (mine same)⟩
  · intro c' new _
    rw [mem_singleton.mp new]
    exact .inr ⟨u, tag, ⟨reached u block.reached,
      fun _ => mem_append_right _ mem_cons_self⟩, rawName⟩
  · have more := adds.trans adds'
    rw [append_nil] at more
    refine ⟨{ x with rows := x.rows ++ [c] }, isUse, ⟨proper.columns, ?_⟩, more, keys⟩
    intro c' mem
    rcases mem_append.mp mem with old | new
    · obtain ⟨named, grounded, mentions⟩ := proper.rows c' old
      exact ⟨named, grounded.mono fun key => adds'.knows, mentions⟩
    · rw [mem_singleton.mp new]
      refine ⟨⟨tag, by rw [rawName, isUse]⟩, ⟨?_, ?_, difference, ?_, nonconstant⟩, ?_⟩
      · rw [stored.lhs]
        refine (fits.known r isRow).mono ?_
        rintro key (old | ⟨part, inside, rfl⟩)
        · exact adds'.knows (block.knows_start old)
        · exact adds'.knows (block.knows_part inside)
      · rw [stored.rhs]
        exact Polynomial.over_const _ _
      · rw [Constraint.difference, stored.lhs, stored.rhs]
        exact minus
      · obtain ⟨part, inside, mentions⟩ := fits.exists_part isRow minus nonconstant
        obtain ⟨v, known, key⟩ := mem_map.mp (keys ▸ mem_map_of_mem inside)
        refine ⟨v, known, ?_⟩
        rw [stored.lhs, key]
        exact mentions

/-- One more row, or an error that is excused. -/
theorem declareRow (block : Block cfg u start parts tags s.model) {row : Except Error Row}
    {tag : Tag} (fits : RowFits cfg u start parts row tag) (unused : tag ∉ tags) :
    Grows cfg (do
      let row ← row
      let name := u.family cfg ++ "_" ++ toString u.number ++ "_" ++ row.tag
      let _ ← Assembly.addConstraint cfg (.str name) row.lhs row.relation
        (Polynomial.const row.rhs) .none) s
      fun _ m => Block cfg u start parts (tags ++ [tag]) m := by
  refine Grows.lift_bind fits.clashFree fun r isRow => ?_
  have name : u.family cfg ++ "_" ++ toString u.number ++ "_" ++ r.tag
      = u.rowName cfg tag := by
    rw [fits.tagged r isRow]
    rfl
  dsimp only
  rw [name]
  suffices stored : Grows cfg (Assembly.addConstraint cfg (.str (u.rowName cfg tag)) r.lhs
      r.relation (Polynomial.const r.rhs) .none) s
      fun _ m => Block cfg u start parts (tags ++ [tag]) m from
    stored.bind fun _ _ after => Grows.pure after
  unfold Grows
  split
  case h_1 result s' ran =>
    obtain ⟨coherent, registered⟩ := (Keeps.addConstraint
      (Model.registered_invariant cfg)).ok ran block.coherent block.registered
    obtain ⟨difference, minus, outcome⟩ := Assembly.addConstraint_cases ran
    rcases outcome with ⟨-, -, model⟩ | ⟨nonconstant, c, stored⟩
    · rw [model]
      exact block.more_tags [tag]
    · exact block.addRow fits isRow minus nonconstant stored coherent registered
  case h_2 e s' ran =>
    obtain ⟨same, clashes⟩ := addConstraint_clash ran
    rw [same]
    rintro rfl tidy short name clash
    obtain ⟨isName, refused⟩ := clashes name clash
    by_contra long
    -- a row whose name is short enough would have been accepted
    let c : Constraint :=
      { name := Name.sanitize 255 (u.rowName {} tag), rawName := u.rowName {} tag, lhs := r.lhs,
        relation := r.relation, rhs := .const r.rhs, description := .none }
    refine refused c rfl ?_
    refine Model.acceptsRow_tag block.registered block.numbered tidy short
      (fun used => unused (used.2 rfl)) ?_ rfl rfl
    rw [isName] at long
    exact Nat.le_of_not_lt long

/-- The rows of a use, in order. -/
theorem declareRows {rows : List (Except Error Row)} {new : List Tag}
    (fits : Forall₂ (RowFits cfg u start parts) rows new) (distinct : new.Nodup)
    (unused : ∀ tag ∈ new, tag ∉ tags) (block : Block cfg u start parts tags s.model) :
    Grows cfg (declareRows cfg (u.family cfg) u.number rows) s
      fun _ m => Block cfg u start parts (tags ++ new) m := by
  induction fits generalizing tags s with
  | nil =>
    rw [append_nil]
    exact Grows.pure block
  | @cons row tag rows new first rest ih =>
    rw [nodup_cons] at distinct
    rw [forall_mem_cons] at unused
    refine (block.declareRow first unused.1).bind fun _ s' after => ?_
    have later := ih distinct.2 (fun t mem => ?_) after
    · rwa [append_assoc] at later
    · intro taken
      rcases mem_append.mp taken with old | here
      · exact unused.2 t mem old
      · exact distinct.1 (mem_singleton.mp here ▸ mem)

theorem conservative (block : Block cfg u start parts tags m) :
    m.Ready cfg ∧ start.Conservative cfg m := by
  have numbered := (Model.Adds.of_same m.counters).numbered block.numbered (fun _ _ => And.left)
    (fun _ _ => And.left) (by simp) (by simp)
  obtain ⟨x, -, proper, adds, -⟩ := block.added
  exact ⟨⟨block.coherent, block.registered, numbered⟩, [x], by simpa using adds,
    by simpa using proper⟩

end Block

end LinearProgram
