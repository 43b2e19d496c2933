import LinearProgram.Proofs.Blocks

/-!
# The operators add fresh variables and grounded rows

Each operator is one use, and only adds to the model (`Model.Extends`). A row mentions a variable of
its use (`Marked`): the variable has coefficient one, and what is added to it is over other
instances (`Aside`).
-/

namespace LinearProgram

open List Linearization LinearProgram.Polynomial

variable {cfg : Config} {u : Use} {start : Model} {parts chosen : List Part} {tags : List Tag}
  {m : Model} {s : Store} {tag : Nat → Tag} {n : Nat} {o : Operator}

/-! ## Rows that mention a part -/

/-- Instances that were there before and parts of the use, but not the part `part`. -/
def Aside (cfg : Config) (u : Use) (start : Model) (parts : List Part) (part : Part)
    (key : VarKey) : Prop :=
  (start.Knows key ∨ ∃ other ∈ parts, key = u.key cfg other)
    ∧ (u.key cfg part).equal key = false

/-- A polynomial over instances that were there before and parts of the use, with a term of one
part. -/
structure Marked (cfg : Config) (u : Use) (start : Model) (parts : List Part) (part : Part)
    (p : Polynomial) : Prop where
  known : p.Over fun key => start.Knows key ∨ ∃ other ∈ parts, key = u.key cfg other
  mentions : p.Mentions (u.key cfg part)

section Rows

variable {part : Part} {p q r e : Polynomial}

theorem Marked.add (marked : Marked cfg u start parts part p)
    (aside : q.Over (Aside cfg u start parts part)) (added : p.add q = .ok r) :
    Marked cfg u start parts part r :=
  ⟨marked.known.add (aside.mono fun _ => And.left) added,
    marked.mentions.add (aside.mono fun _ => And.right) added⟩

theorem Marked.sub (marked : Marked cfg u start parts part p)
    (aside : q.Over (Aside cfg u start parts part)) (minus : p.sub q = .ok r) :
    Marked cfg u start parts part r :=
  ⟨marked.known.sub (aside.mono fun _ => And.left) minus,
    marked.mentions.sub (aside.mono fun _ => And.right) minus⟩

theorem marked_part (mem : part ∈ parts) :
    Marked cfg u start parts part (ofKey (u.key cfg part)) :=
  ⟨over_ofKey (.inr ⟨part, mem, rfl⟩), mentions_ofKey _⟩

theorem aside_part {other : Part} (mem : other ∈ parts) (different : part ≠ other) :
    (ofKey (u.key cfg other)).Over (Aside cfg u start parts part) := by
  refine over_ofKey ⟨.inr ⟨other, mem, rfl⟩, Bool.eq_false_iff.mpr fun same => ?_⟩
  exact different ((u.key_equal_key cfg).mp same)

namespace Block

variable (block : Block cfg u start parts tags m)
include block

theorem aside_operand (mem : part ∈ parts) (known : e.Over start.Knows) :
    e.Over (Aside cfg u start parts part) :=
  known.mono fun _ inside => ⟨.inl inside, block.avoids mem inside⟩

omit block in
theorem fits_of_marked {row : Except Error Row} {tag : Tag} (mem : part ∈ parts)
    (plain : Plain row)
    (each : ∀ r, row = .ok r → r.tag = tag.text ∧ Marked cfg u start parts part r.lhs) :
    RowFits cfg u start parts row tag where
  clashFree := plain.clashFree
  tagged r isRow := (each r isRow).1
  known r isRow := (each r isRow).2.known
  mentions r isRow := .inr ⟨part, mem, (each r isRow).2.mentions⟩

omit block in
/-- A sum of different parts, marked by the first of them. -/
theorem marked_total {first : Part} {others : List Part}
    (members : ∀ p ∈ first :: others, p ∈ parts)
    (distinct : (first :: others).Nodup)
    (summed : total ((first :: others).map fun p => ofKey (u.key cfg p)) = .ok r) :
    Marked cfg u start parts first r := by
  have each : ∀ p ∈ others, (ofKey (u.key cfg p)).Over
      (Aside cfg u start parts first) := by
    intro p inside
    refine aside_part (members p (mem_cons_of_mem _ inside)) ?_
    rintro rfl
    exact (nodup_cons.mp distinct).1 inside
  constructor
  · refine total_over (fun p inside => ?_) summed
    obtain ⟨part, mem, rfl⟩ := mem_map.mp inside
    exact (marked_part (members part mem)).known
  · refine total_mentions (fun p inside => ?_) summed
    obtain ⟨part, mem, rfl⟩ := mem_map.mp inside
    exact (each part mem).mono fun _ => And.right

omit block in
theorem oneRow_fits (nonempty : chosen ≠ []) (members : ∀ p ∈ chosen, p ∈ parts)
    (distinct : chosen.Nodup) :
    RowFits cfg u start parts
      (oneRow (chosen.map fun p => ofKey (u.key cfg p))) Tag.one := by
  obtain ⟨first, others, rfl⟩ := exists_cons_of_ne_nil nonempty
  refine fits_of_marked (members first mem_cons_self) (by simp [oneRow]) fun r isRow => ?_
  obtain ⟨lhs, summed, done⟩ := bind_eq_ok.mp isRow
  cases done
  exact ⟨rfl, marked_total members distinct summed⟩

theorem absoluteRows_fit (mem : part ∈ parts) (known : e.Over start.Knows) :
    Forall₂ (RowFits cfg u start parts)
      (absoluteRows (ofKey (u.key cfg part)) e) [Tag.pos, Tag.neg] := by
  have aside := block.aside_operand mem known
  refine .cons ?_ (.cons ?_ .nil)
  · refine fits_of_marked mem (by simp) fun r isRow => ?_
    obtain ⟨lhs, minus, done⟩ := bind_eq_ok.mp isRow
    cases done
    exact ⟨rfl, (marked_part mem).sub aside minus⟩
  · refine fits_of_marked mem (by simp) fun r isRow => ?_
    obtain ⟨lhs, added, done⟩ := bind_eq_ok.mp isRow
    cases done
    exact ⟨rfl, (marked_part mem).add aside added⟩

omit block in
theorem forall₂_flatMap {α β γ : Type} {R : β → γ → Prop} {f : α → List β} {g : α → List γ}
    {l : List α} (each : ∀ a ∈ l, Forall₂ R (f a) (g a)) :
    Forall₂ R (l.flatMap f) (l.flatMap g) := by
  induction l with
  | nil => exact .nil
  | cons _ _ ih =>
    rw [forall_mem_cons] at each
    exact rel_append each.1 (ih each.2)

/-- A row that compares the part with an operand, once a big-M constant is known to exist. -/
theorem plainRow_fits {slack high low : Number} (tag : Tag) (rel : Relation)
    (mem : part ∈ parts) (known : e.Over start.Knows) :
    RowFits cfg u start parts (do
      let _ ← bigM slack high low
      let d ← (ofKey (u.key cfg part)).sub e
      pure { tag := tag.text, lhs := d, relation := rel }) tag := by
  refine fits_of_marked mem (by simp) fun r isRow => ?_
  obtain ⟨_, -, isRow⟩ := bind_eq_ok.mp isRow
  obtain ⟨d, minus, done⟩ := bind_eq_ok.mp isRow
  cases done
  exact ⟨rfl, (marked_part mem).sub (block.aside_operand mem known) minus⟩

/-- A row with a big-M constant, that adds or subtracts a multiple of `y`. -/
theorem bigMRow_fits {join : Polynomial → Polynomial → Except Error Polynomial}
    (plain : ∀ p q, Plain (join p q))
    (joins : ∀ {p q r : Polynomial}, Marked cfg u start parts part p →
      q.Over (Aside cfg u start parts part) → join p q = .ok r →
      Marked cfg u start parts part r)
    {slack high low : Number} (tag : Tag) (rel : Relation) (bound : Number → Number)
    (mem : part ∈ parts) (known : e.Over start.Knows) {y : Polynomial}
    (aside : y.Over (Aside cfg u start parts part)) :
    RowFits cfg u start parts (do
      let M ← bigM slack high low
      let d ← (ofKey (u.key cfg part)).sub e
      let scaled ← y.scale M
      let lhs ← join d scaled
      pure { tag := tag.text, lhs, relation := rel, rhs := bound M }) tag := by
  refine fits_of_marked mem (by simp [plain]) fun r isRow => ?_
  obtain ⟨_, -, isRow⟩ := bind_eq_ok.mp isRow
  obtain ⟨d, minus, isRow⟩ := bind_eq_ok.mp isRow
  obtain ⟨scaled, times, isRow⟩ := bind_eq_ok.mp isRow
  obtain ⟨lhs, joined, done⟩ := bind_eq_ok.mp isRow
  cases done
  have operand := (marked_part mem).sub (block.aside_operand mem known) minus
  exact ⟨rfl, joins operand (aside.scale times) joined⟩

omit block in
/-- The rows of `max` and `min`: the selectors add up to one, and each choice has two rows. -/
theorem selectionRows_fit {rows : Choice → List (Except Error Row)} {cs : List Choice}
    (nonempty : chosen ≠ []) (distinct : chosen.Nodup) (members : ∀ p ∈ chosen, p ∈ parts)
    (each : ∀ c ∈ cs, c.selector ∈ chosen.map (fun p => ofKey (u.key cfg p)))
    (fits : ∀ c ∈ cs, ∀ part' ∈ chosen, c.selector = ofKey (u.key cfg part') →
      Forall₂ (RowFits cfg u start parts) (rows c) [tag c.number, Tag.selected c.number]) :
    Forall₂ (RowFits cfg u start parts)
      (oneRow (chosen.map fun p => ofKey (u.key cfg p)) :: cs.flatMap rows)
      (Tag.one :: cs.flatMap fun c => [tag c.number, Tag.selected c.number]) := by
  refine .cons (oneRow_fits nonempty members distinct) (forall₂_flatMap fun c mem => ?_)
  obtain ⟨part', inside, selector⟩ := mem_map.mp (each c mem)
  exact fits c mem part' inside selector.symm

theorem operandRows_fit {word : String} (texts : ∀ k, (tag k).text = word ++ toString k)
    {rel : Relation} (mem : part ∈ parts) {operands : List Polynomial}
    (known : ∀ e ∈ operands, e.Over start.Knows) (k : Nat) :
    Forall₂ (RowFits cfg u start parts)
      (operandRows word rel (ofKey (u.key cfg part)) k operands)
      ((List.range' k operands.length).map tag) := by
  induction operands generalizing k with
  | nil => exact .nil
  | cons _ _ ih =>
    rw [forall_mem_cons] at known
    refine .cons ?_ (ih known.2 (k + 1))
    refine fits_of_marked mem (by simp) fun r isRow => ?_
    obtain ⟨lhs, minus, done⟩ := bind_eq_ok.mp isRow
    cases done
    exact ⟨(texts k).symm,
      (marked_part mem).sub (block.aside_operand mem known.1) minus⟩

theorem totalRow_fits (tag : Tag) (rel : Relation) (rhs : Number) (mem : part ∈ parts)
    {operands : List Polynomial} (known : ∀ e ∈ operands, e.Over start.Knows) :
    RowFits cfg u start parts (do
      let lhs ← (ofKey (u.key cfg part)).sub (← total operands)
      pure { tag := tag.text, lhs, relation := rel, rhs }) tag := by
  refine fits_of_marked mem (by simp) fun r isRow => ?_
  obtain ⟨sum, summed, isRow⟩ := bind_eq_ok.mp isRow
  obtain ⟨lhs, minus, done⟩ := bind_eq_ok.mp isRow
  cases done
  have aside := total_over (fun e inside => block.aside_operand mem (known e inside)) summed
  exact ⟨rfl, (marked_part mem).sub aside minus⟩

theorem choiceRows_fit {slack low high : Number} {cond yes no : Polynomial}
    {thenBounds elseBounds : Number × Number} (mem : part ∈ parts)
    (knownCond : cond.Over start.Knows) (knownThen : yes.Over start.Knows)
    (knownElse : no.Over start.Knows) :
    Forall₂ (RowFits cfg u start parts)
      (choiceRows slack (ofKey (u.key cfg part)) cond low high yes no
        thenBounds elseBounds) [Tag.thenUpper, Tag.thenLower, Tag.elseUpper, Tag.elseLower] := by
  have aside := block.aside_operand mem knownCond
  refine .cons ?_ (.cons ?_ (.cons ?_ (.cons ?_ .nil)))
  · exact block.bigMRow_fits plain_add Marked.add Tag.thenUpper _ id mem knownThen
      aside
  · exact block.bigMRow_fits plain_sub Marked.sub Tag.thenLower _ _ mem knownThen
      aside
  · exact block.bigMRow_fits plain_sub Marked.sub Tag.elseUpper _ _ mem knownElse
      aside
  · exact block.bigMRow_fits plain_add Marked.add Tag.elseLower _ _ mem knownElse
      aside

omit block in
theorem segmentRows_fit {k : Nat} {low high : Value} {part' : Part} (mem : part ∈ parts)
    (mem' : part' ∈ parts) (different : part ≠ part') :
    Forall₂ (RowFits cfg u start parts)
      (segmentRows k (ofKey (u.key cfg part'))
        (ofKey (u.key cfg part)) low high) [Tag.low k, Tag.high k] := by
  have selector : Polynomial.Over (Aside cfg u start parts part)
      (ofKey (u.key cfg part')) := aside_part mem' different
  refine .cons ?_ (.cons ?_ .nil)
  all_goals
    refine fits_of_marked mem (by simp) fun r isRow => ?_
    obtain ⟨x, read, isRow⟩ := bind_eq_ok.mp isRow
    obtain ⟨bound, times, isRow⟩ := bind_eq_ok.mp isRow
    obtain ⟨lhs, minus, done⟩ := bind_eq_ok.mp isRow
    cases done
    have aside := selector.mul (over_ofValue read) times
    exact ⟨rfl, (marked_part mem).sub aside minus⟩

theorem linkRows_fit {selectors portions : List Part} (nonempty : selectors ≠ [])
    (members : ∀ p ∈ selectors, p ∈ parts) (distinct : selectors.Nodup) (nonempty' : portions ≠ [])
    (members' : ∀ p ∈ portions, p ∈ parts) (distinct' : portions.Nodup)
    (known : e.Over start.Knows) :
    Forall₂ (RowFits cfg u start parts)
      (linkRows (selectors.map fun p => ofKey (u.key cfg p))
        (portions.map fun p => ofKey (u.key cfg p)) e) [Tag.one, Tag.link] := by
  refine .cons (oneRow_fits nonempty members distinct) (.cons ?_ .nil)
  obtain ⟨first, others, rfl⟩ := exists_cons_of_ne_nil nonempty'
  have mem := members' first mem_cons_self
  refine fits_of_marked mem (by simp) fun r isRow => ?_
  obtain ⟨sum, summed, isRow⟩ := bind_eq_ok.mp isRow
  obtain ⟨lhs, minus, done⟩ := bind_eq_ok.mp isRow
  cases done
  exact ⟨rfl, (marked_total members' distinct' summed).sub (block.aside_operand mem known)
    minus⟩

end Block

end Rows

/-! ## The operators -/

/-- A model that has grown by uses of operators alone, and knows the instances of the given
polynomials. -/
structure Model.Extends (cfg : Config) (m : Model) (ps : List Polynomial) (m' : Model) :
    Prop where
  ready : m'.Ready cfg
  conservative : m.Conservative cfg m'
  known : ∀ p ∈ ps, p.Over m'.Knows

/-- A step that adds nothing but uses of operators and gives a polynomial over known instances. -/
abbrev Extending (cfg : Config) (x : Assembly Polynomial) (s : Store) : Prop :=
  Grows cfg x s fun p m => s.model.Extends cfg [p] m

theorem Model.extends_refl (ready : m.Ready cfg) {p : Polynomial} (known : p.Over m.Knows) :
    m.Extends cfg [p] m :=
  ⟨ready, .refl cfg m, by simpa using known⟩

theorem Block.extends (block : Block cfg u start parts tags m) {p : Polynomial}
    (known : p.Over m.Knows) : start.Extends cfg [p] m :=
  ⟨block.conservative.1, block.conservative.2, by simpa using known⟩

theorem Block.extends_part (block : Block cfg u start parts tags m) {part : Part}
    (mem : part ∈ parts) :
    start.Extends cfg [ofKey (u.key cfg part)] m :=
  block.extends (over_ofKey (block.knows_part mem))

theorem Block.introduceSelectors (block : Block cfg u start parts tags s.model) {ks : List Nat}
    (distinct : ks.Nodup) (unused : ∀ k ∈ ks, Part.selector (k + 1) ∉ parts) :
    Grows cfg (ks.mapM fun k =>
        Linearization.introduce cfg (u.family cfg ++ "_sel") [u.number, k + 1] .binary none
          none) s
      fun ps m =>
        ps = (ks.map fun k => Part.selector (k + 1)).map
            (fun p => ofKey (u.key cfg p))
          ∧ Block cfg u start (parts ++ ks.map fun k => Part.selector (k + 1)) tags m := by
  induction ks generalizing parts s with
  | nil => exact Grows.pure ⟨rfl, by simpa using block⟩
  | cons _ _ ih =>
    rw [nodup_cons] at distinct
    rw [forall_mem_cons] at unused
    rw [mapM_cons]
    refine (block.introduce unused.1 none none).bind ?_
    rintro p s₁ ⟨rfl, after⟩
    refine (ih after distinct.2 fun k' mem taken => ?_).bind ?_
    · rcases mem_append.mp taken with old | here
      · exact unused.2 k' mem old
      · cases mem_singleton.mp here
        exact distinct.1 mem
    · rintro ps s₂ ⟨rfl, done⟩
      rw [append_assoc] at done
      exact Grows.pure ⟨rfl, done⟩

theorem Linearization.choices_spec (k : Nat) (es ys : List Polynomial)
    (rs : List (Number × Number)) :
    (choices k es ys rs).Pairwise (fun c d => c.number < d.number)
      ∧ ∀ c ∈ choices k es ys rs, k ≤ c.number ∧ c.operand ∈ es ∧ c.selector ∈ ys := by
  fun_induction choices k es ys rs with
  | case1 k e operands y selectors range ranges ih =>
    obtain ⟨sorted, each⟩ := ih
    refine ⟨pairwise_cons.mpr ⟨fun c mem => (each c mem).1, sorted⟩, ?_⟩
    rw [forall_mem_cons]
    refine ⟨⟨Nat.le_refl k, mem_cons_self, mem_cons_self⟩, fun c mem => ?_⟩
    obtain ⟨later, operand, selector⟩ := each c mem
    exact ⟨Nat.le_of_succ_le later, mem_cons_of_mem _ operand,
      mem_cons_of_mem _ selector⟩
  | case2 => exact ⟨List.Pairwise.nil, by simp⟩

/-- The tags of the choices of a use: different numbers, and two words. -/
theorem choiceTags_nodup {cs : List Choice} {first second : Nat → Tag}
    (sorted : cs.Pairwise fun c d => c.number < d.number)
    (apart : ∀ j k, first j ≠ second k) (inj : ∀ j k, first j = first k → j = k)
    (inj' : ∀ j k, second j = second k → j = k) :
    (cs.flatMap fun c => [first c.number, second c.number]).Nodup := by
  refine nodup_flatMap.mpr ⟨fun c _ => ?_, sorted.imp fun {c d} less => ?_⟩
  · simp [apart]
  · intro tag left right
    simp only [mem_cons, not_mem_nil, or_false] at left right
    rcases left with rfl | rfl <;> rcases right with same | same
    · exact Nat.ne_of_lt less (inj _ _ same)
    · exact apart _ _ same
    · exact apart _ _ same.symm
    · exact Nat.ne_of_lt less (inj' _ _ same)

/-- What the rows of `max` and `min` have in common: each choice has two, and their tags tell the
choices apart. -/
structure Selecting (cfg : Config) (o : Operator) (tag : Nat → Tag)
    (rows : Polynomial → Choice → List (Except Error Row)) : Prop where
  whole : ∀ n, Use.kind ⟨o, n⟩ .whole = .continuous
  inj : ∀ j k, tag j = tag k → j = k
  apart : ∀ j k, tag j ≠ Tag.selected k
  notOne : ∀ j, tag j ≠ Tag.one
  fits : ∀ {n : Nat} {start m : Model} {parts : List Part} {tags : List Tag} {c : Choice}
    {p : Part}, Block cfg ⟨o, n⟩ start parts tags m → .whole ∈ parts →
    c.operand.Over start.Knows → p ∈ parts → .whole ≠ p →
    c.selector = ofKey (Use.key cfg ⟨o, n⟩ p) →
    Forall₂ (Block.RowFits cfg ⟨o, n⟩ start parts)
      (rows (ofKey (Use.key cfg ⟨o, n⟩ .whole)) c)
      [tag c.number, Tag.selected c.number]

/-- The part that `max` and `min` share: one variable for the result, a selector per operand, and
the rows of the choices. -/
theorem Block.selection {rows : Polynomial → Choice → List (Except Error Row)}
    (block : Block cfg ⟨o, n⟩ start [] [] s.model) (selecting : Selecting cfg o tag rows)
    (lower upper : Option Number) (ranges : List (Number × Number)) {operands : List Polynomial}
    (nonempty : operands ≠ []) (known : ∀ e ∈ operands, e.Over start.Knows) :
    Grows cfg (do
      let z ← Linearization.introduce cfg (Use.family cfg ⟨o, n⟩) [n] .continuous lower upper
      let selectors ← Linearization.introduceSelectors cfg (Use.family cfg ⟨o, n⟩) n
        operands.length
      Linearization.declareRows cfg (Use.family cfg ⟨o, n⟩) n
        (oneRow selectors :: (choices 1 operands selectors ranges).flatMap (rows z))
      pure z) s fun p m => start.Extends cfg [p] m := by
  have first := block.introduce (show Part.whole ∉ [] from not_mem_nil) lower upper
  rw [selecting.whole] at first
  refine first.bind ?_
  rintro z s₂ ⟨rfl, block⟩
  refine (block.introduceSelectors nodup_range (by simp)).bind ?_
  rintro selectors s₃ ⟨rfl, block⟩
  generalize shape : ((List.range operands.length).map fun k => Part.selector (k + 1)) = chosen
    at block
  have selectors : chosen ≠ [] ∧ chosen.Nodup ∧ Part.whole ∉ chosen := by
    rw [← shape]
    refine ⟨by simpa using nonempty, List.Nodup.map ?_ nodup_range, by simp⟩
    intro j k same
    simpa using same
  obtain ⟨some, distinct, other⟩ := selectors
  obtain ⟨sorted, each⟩ := choices_spec 1 operands
    (chosen.map fun part => ofKey (Use.key cfg ⟨o, n⟩ part)) ranges
  have mem : Part.whole ∈ [] ++ [Part.whole] ++ chosen := by simp
  generalize choices 1 operands
    (chosen.map fun part => ofKey (Use.key cfg ⟨o, n⟩ part)) ranges = cs
    at sorted each
  have rowsFit : Forall₂ (Block.RowFits cfg ⟨o, n⟩ start ([] ++ [.whole] ++ chosen)) _
      (Tag.one :: cs.flatMap fun c => [tag c.number, Tag.selected c.number]) :=
    Block.selectionRows_fit some distinct (fun p => mem_append_right _)
      (fun c inside => (each c inside).2.2) fun c inside p isChosen isSelector =>
        selecting.fits block mem (known _ (each c inside).2.1) (mem_append_right _ isChosen)
          (fun same => other (same ▸ isChosen)) isSelector
  have tagsDiffer :
      (Tag.one :: cs.flatMap fun c => [tag c.number, Tag.selected c.number]).Nodup := by
    refine nodup_cons.mpr
      ⟨fun inside => ?_, choiceTags_nodup sorted selecting.apart selecting.inj fun j k same => ?_⟩
    · obtain ⟨c, -, isTag⟩ := mem_flatMap.mp inside
      rcases mem_pair.mp isTag with same | same
      · exact selecting.notOne _ same.symm
      · simp [Tag.one, Tag.selected] at same
    · simpa [Tag.selected] using same
  exact (block.declareRows rowsFit tagsDiffer fun _ _ => not_mem_nil).bind
    fun _ s₄ block => Grows.pure (block.extends_part mem)

theorem checkBooleans_grows (label : String) (operands : List Polynomial) :
    Grows cfg (checkBooleans label operands) s fun _ m => m = s.model := by
  have checked : Grows cfg (operands.forM fun e => do
      if ← (s.model.isBoolean e : Except Error Bool) then pure ()
      else Assembly.refuse (.operandNotBoolean label e)) s fun _ m => m = s.model := by
    refine Grows.forM (I := (· = s.model)) rfl (fun e s' same => ?_) operands
    refine Grows.lift_bind (s.model.plain_isBoolean e).clashFree fun boolean _ => ?_
    exact Grows.ite (fun _ => Grows.pure same) fun _ => Grows.refuse rfl
  exact Grows.ite (fun _ => Grows.refuse_bind rfl) fun _ => checked

/-- The parts and the tags of the first segments of a piecewise linear function. -/
def segmentParts (count : Nat) : List Part :=
  (List.range' 1 count).flatMap fun k => [.selector k, .portion k]

def segmentTags (count : Nat) : List Tag :=
  (List.range' 1 count).flatMap fun k => [Tag.low k, Tag.high k]

theorem segmentParts_succ (count : Nat) :
    segmentParts (count + 1)
      = segmentParts count ++ [.selector (count + 1)] ++ [.portion (count + 1)] := by
  simp [segmentParts, range'_1_concat, flatMap_append, Nat.add_comm]

theorem segmentTags_succ (count : Nat) :
    segmentTags (count + 1) = segmentTags count ++ [Tag.low (count + 1), Tag.high (count + 1)] := by
  simp [segmentTags, range'_1_concat, flatMap_append, Nat.add_comm]

theorem not_mem_segmentParts (count : Nat) :
    .selector (count + 1) ∉ segmentParts count ∧ .portion (count + 1) ∉ segmentParts count := by
  simp [segmentParts, mem_flatMap, mem_range']
  omega

theorem not_mem_segmentTags (count : Nat) :
    Tag.low (count + 1) ∉ segmentTags count ∧ Tag.high (count + 1) ∉ segmentTags count := by
  simp [segmentTags, mem_flatMap, mem_range', Tag.low, Tag.high]
  omega

/-- The first segments of a piecewise linear function, and what they have built up. -/
structure Segmented (cfg : Config) (u : Use) (start : Model) (count : Nat) (done : Segments)
    (m : Model) : Prop where
  block : Block cfg u start (segmentParts count) (segmentTags count) m
  selectors : done.selectors
    = ((List.range' 1 count).map Part.selector).map fun p => ofKey (u.key cfg p)
  portions : done.portions
    = ((List.range' 1 count).map Part.portion).map fun p => ofKey (u.key cfg p)
  result : done.result.Over fun key => ∃ part ∈ segmentParts count, key = u.key cfg part

theorem Segmented.addSegment {count : Nat} {done : Segments}
    (before : Segmented cfg ⟨.piecewise, n⟩ start count done s.model) (low high : Value)
    (slope intercept : Option Value) :
    Grows cfg (addSegment cfg (Use.family cfg ⟨.piecewise, n⟩) n (count + 1) low high slope
      intercept done) s
        fun done m => Segmented cfg ⟨.piecewise, n⟩ start (count + 1) done m := by
  obtain ⟨freeSelector, freePortion⟩ := not_mem_segmentParts count
  refine (before.block.introduce freeSelector none none).bind ?_
  rintro y s₁ ⟨rfl, block⟩
  refine Grows.lift_bind (clashFree_portionLower low) fun lower _ => ?_
  refine Grows.lift_bind (clashFree_portionUpper high) fun upper _ => ?_
  refine Grows.lift_bind (Bound.plain_ofValue lower).clashFree fun from_ _ => ?_
  refine Grows.lift_bind (Bound.plain_ofValue upper).clashFree fun to_ _ => ?_
  refine (block.introduce (show .portion (count + 1) ∉ _ by simpa using freePortion)
    from_ to_).bind ?_
  rintro w s₂ ⟨rfl, block⟩
  rw [← segmentParts_succ] at block
  have selector : .selector (count + 1) ∈ segmentParts (count + 1) := by simp [segmentParts_succ]
  have portion : .portion (count + 1) ∈ segmentParts (count + 1) := by simp [segmentParts_succ]
  refine (block.declareRows (Block.segmentRows_fit portion selector (by simp))
    (by simp [Tag.low, Tag.high]) ?_).bind fun _ s₃ block => ?_
  · obtain ⟨freeLow, freeHigh⟩ := not_mem_segmentTags count
    simp [freeLow, freeHigh]
  rw [← segmentTags_succ] at block
  refine Grows.lift_bind (clashFree_orOutOfRange slope) fun slope _ => ?_
  refine Grows.lift_bind (plain_ofValue slope).clashFree fun a isSlope => ?_
  refine Grows.lift_bind (plain_mul _ a).clashFree fun aw times => ?_
  refine Grows.lift_bind (plain_add _ aw).clashFree fun rising isRising => ?_
  refine Grows.lift_bind (clashFree_orOutOfRange intercept) fun intercept _ => ?_
  refine Grows.lift_bind (plain_ofValue intercept).clashFree fun b isIntercept => ?_
  refine Grows.lift_bind (plain_mul _ b).clashFree fun byy times' => ?_
  refine Grows.lift_bind (rising.plain_add byy).clashFree fun result isResult => Grows.pure ?_
  refine ⟨block, ?_, ?_, ?_⟩
  · simp [before.selectors, range'_1_concat, Nat.add_comm]
  · simp [before.portions, range'_1_concat, Nat.add_comm]
  · have old : done.result.Over fun key =>
        ∃ part ∈ segmentParts (count + 1), key = Use.key cfg ⟨.piecewise, n⟩ part := by
      refine before.result.mono ?_
      rintro key ⟨part, mem, isKey⟩
      exact ⟨part, by simp [segmentParts_succ, mem], isKey⟩
    have rising' := old.add ((over_ofKey ⟨_, portion, rfl⟩).mul
      (over_ofValue isSlope) times) isRising
    exact rising'.add ((over_ofKey ⟨_, selector, rfl⟩).mul
      (over_ofValue isIntercept) times') isResult

/-- The remaining segments, by induction on the breakpoints. -/
theorem Segmented.addSegments {count : Nat} {done : Segments}
    {points slopes offsets : List Value}
    (before : Segmented cfg ⟨.piecewise, n⟩ start count done s.model) :
    Grows cfg (addSegments cfg (Use.family cfg ⟨.piecewise, n⟩) n (count + 1) points slopes
      offsets done) s
        fun done m => ∃ count, Segmented cfg ⟨.piecewise, n⟩ start count done m := by
  induction points generalizing count slopes offsets done s with
  | nil => exact Grows.pure ⟨count, before⟩
  | cons low points ih =>
    cases points with
    | nil => exact Grows.pure ⟨count, before⟩
    | cons high =>
      exact (before.addSegment low high slopes.head? offsets.head?).bind
        fun done' s₁ after =>
        ih after

section Operators

variable (ready : s.model.Ready cfg) {e : Polynomial} {operands : List Polynomial}
include ready

theorem absolute_grows (known : e.Over s.model.Knows) :
    Extending cfg (absolute cfg e) s := by
  refine Grows.ite (fun _ => Grows.pure (Model.extends_refl ready (over_const _ _)))
    fun _ => Grows.model_bind
      (Grows.lift_bind (s.model.plain_boundsOf e).clashFree fun bounds _ => ?_)
  refine Grows.ite (fun _ => Grows.pure (Model.extends_refl ready known)) fun _ => ?_
  refine Grows.ite (fun _ => Grows.lift e.plain_neg.clashFree fun p negated =>
    Model.extends_refl ready (known.neg negated)) fun _ => ?_
  refine (Block.start_of_ready ready .absolute).bind ?_
  rintro use s₁ ⟨n, rfl, block⟩
  refine (block.introduce (show Part.whole ∉ [] from not_mem_nil) _ _).bind ?_
  rintro a s₂ ⟨rfl, block⟩
  have mem : Part.whole ∈ [] ++ [Part.whole] := mem_singleton.mpr rfl
  refine (block.declareRows (block.absoluteRows_fit mem known) (by simp [Tag.pos, Tag.neg])
    (by simp)).bind fun _ s₃ block => Grows.pure ?_
  exact block.extends_part mem

theorem selection_grows (o : Operator) (tag : Nat → Tag) {better : Number → Number → Number}
    {rows : Number → Number → Polynomial → Choice → List (Except Error Row)}
    (selecting : ∀ low high, Selecting cfg o tag (rows low high))
    (known : ∀ e ∈ operands, e.Over s.model.Knows) :
    Extending cfg (selection cfg operands o.word better rows) s := by
  unfold selection
  split
  case h_1 => exact Grows.refuse rfl
  case h_2 e => exact Grows.pure (Model.extends_refl ready (known e mem_cons_self))
  case h_3 none _ =>
    refine Grows.ite (fun _ => Grows.pure (Model.extends_refl ready (over_const _ _)))
      fun _ => Grows.model_bind ?_
    refine (Grows.mapM (I := (· = s.model)) rfl (fun e s' same => ?_) operands).bind ?_
    · exact Grows.lift (s.model.plain_finiteBoundsOf e o.word).clashFree fun _ _ => same
    · rintro ranges s' same
      rw [← same] at ready known ⊢
      refine (Block.start_of_ready ready o).bind ?_
      rintro use s₁ ⟨n, rfl, block⟩
      exact block.selection (selecting _ _) _ _ ranges none known

theorem maximum_grows (known : ∀ e ∈ operands, e.Over s.model.Knows) :
    Extending cfg (maximum cfg operands) s := by
  rw [Linearization.maximum]
  refine selection_grows ready .maximum Tag.least (fun low high => ?_) known
  refine ⟨fun _ => rfl, by simp [Tag.least], by simp [Tag.least, Tag.selected],
    by simp [Tag.least, Tag.one], fun block mem known mem' different selector => ?_⟩
  refine .cons (block.plainRow_fits (Tag.least _) _ mem known) (.cons ?_ .nil)
  exact block.bigMRow_fits plain_add Marked.add (Tag.selected _) _ id mem known
    (selector ▸ aside_part mem' different)

theorem minimum_grows (known : ∀ e ∈ operands, e.Over s.model.Knows) :
    Extending cfg (minimum cfg operands) s := by
  rw [Linearization.minimum]
  refine selection_grows ready .minimum Tag.most (fun low high => ?_) known
  refine ⟨fun _ => rfl, by simp [Tag.most], by simp [Tag.most, Tag.selected],
    by simp [Tag.most, Tag.one], fun block mem known mem' different selector => ?_⟩
  refine .cons (block.plainRow_fits (Tag.most _) _ mem known) (.cons ?_ .nil)
  exact block.bigMRow_fits plain_sub Marked.sub (Tag.selected _) _ _ mem known
    (selector ▸ aside_part mem' different)

/-- Connectives: one variable for the result, and rows that all have it. -/
theorem connective_grows (o : Operator) (tag : Nat → Tag) (last : Tag)
    {rows : Polynomial → List (Except Error Row)} (binary : ∀ n, Use.kind ⟨o, n⟩ .whole = .binary)
    (inj : ∀ j k, tag j = tag k → j = k) (apart : ∀ k, tag k ≠ last)
    (fits : ∀ {n : Nat} {m : Model} {parts : List Part},
      Block cfg ⟨o, n⟩ s.model parts [] m → .whole ∈ parts →
      (∀ e ∈ operands, e.Over s.model.Knows) →
      Forall₂ (Block.RowFits cfg ⟨o, n⟩ s.model parts)
        (rows (ofKey (Use.key cfg ⟨o, n⟩ .whole)))
        ((List.range' 1 operands.length).map tag ++ [last]))
    (known : ∀ e ∈ operands, e.Over s.model.Knows) :
    Extending cfg (connective cfg operands o.word rows) s := by
  refine (checkBooleans_grows o.word operands).bind fun _ s' same => ?_
  rw [← same] at ready known fits ⊢
  split
  case h_1 e => exact Grows.pure (Model.extends_refl ready (known e mem_cons_self))
  case h_2 =>
    refine (Block.start_of_ready ready o).bind ?_
    rintro use s₁ ⟨n, rfl, block⟩
    have first := block.introduce (show Part.whole ∉ [] from not_mem_nil) none none
    rw [binary] at first
    refine first.bind ?_
    rintro z s₂ ⟨rfl, block⟩
    have mem : Part.whole ∈ [] ++ [Part.whole] := mem_singleton.mpr rfl
    have distinct : ((List.range' 1 operands.length).map tag ++ [last]).Nodup := by
      refine nodup_append.mpr
        ⟨List.Nodup.map (fun j k => inj j k) nodup_range', by simp, ?_⟩
      intro t inside t' isLast same
      obtain ⟨k, -, rfl⟩ := mem_map.mp inside
      exact apart k (same.trans (mem_singleton.mp isLast))
    exact (block.declareRows (fits block mem known) distinct fun _ _ => not_mem_nil).bind
      fun _ s₃ block => Grows.pure (block.extends_part mem)

theorem conjunction_grows (known : ∀ e ∈ operands, e.Over s.model.Knows) :
    Extending cfg (conjunction cfg operands) s := by
  rw [conjunction]
  refine connective_grows ready .conjunction Tag.most Tag.all (fun _ => rfl) (by simp [Tag.most])
    (by simp [Tag.most, Tag.all]) (fun block mem known => ?_) known
  exact rel_append (block.operandRows_fit (fun _ => rfl) mem known 1)
    (.cons (block.totalRow_fits Tag.all _ _ mem known) .nil)

theorem disjunction_grows (known : ∀ e ∈ operands, e.Over s.model.Knows) :
    Extending cfg (disjunction cfg operands) s := by
  rw [disjunction]
  refine connective_grows ready .disjunction Tag.least Tag.any (fun _ => rfl) (by simp [Tag.least])
    (by simp [Tag.least, Tag.any]) (fun block mem known => ?_) known
  exact rel_append (block.operandRows_fit (fun _ => rfl) mem known 1)
    (.cons (block.totalRow_fits Tag.any _ _ mem known) .nil)

theorem choice_grows {cond yes no : Polynomial} (knownCond : cond.Over s.model.Knows)
    (knownThen : yes.Over s.model.Knows) (knownElse : no.Over s.model.Knows) :
    Extending cfg (choice cfg cond yes no) s := by
  refine Grows.model_bind
    (Grows.lift_bind (s.model.plain_isBoolean cond).clashFree fun boolean _ => ?_)
  refine Grows.ite (fun _ => Grows.refuse_bind rfl) fun _ => ?_
  refine Grows.ite (fun _ => Grows.pure (Model.extends_refl ready ?_)) fun _ => ?_
  · split
    · exact knownThen
    · exact knownElse
  refine Grows.ite (fun _ => ?_) fun _ => ?_
  · -- two constant branches: a linear function of the condition
    refine Grows.lift_bind (by simp) fun step _ => ?_
    refine Grows.lift_bind (cond.plain_scale step).clashFree fun scaled isScaled => ?_
    exact Grows.lift (no.plain_add scaled).clashFree fun p added =>
      Model.extends_refl ready (knownElse.add (knownCond.scale isScaled) added)
  refine Grows.lift_bind (s.model.plain_finiteBoundsOf _ _).clashFree fun thenBounds _ => ?_
  refine Grows.lift_bind (s.model.plain_finiteBoundsOf _ _).clashFree fun elseBounds _ => ?_
  refine (Block.start_of_ready ready .choice).bind ?_
  rintro use s₁ ⟨n, rfl, block⟩
  refine (block.introduce (show Part.whole ∉ [] from not_mem_nil) _ _).bind ?_
  rintro z s₂ ⟨rfl, block⟩
  have mem : Part.whole ∈ [] ++ [Part.whole] := mem_singleton.mpr rfl
  refine (block.declareRows (block.choiceRows_fit mem knownCond knownThen knownElse)
    (by simp [Tag.thenUpper, Tag.thenLower, Tag.elseUpper, Tag.elseLower])
    fun _ _ => not_mem_nil).bind fun _ s₃ block => Grows.pure ?_
  exact block.extends_part mem

theorem piecewise_grows (known : e.Over s.model.Knows)
    (breakpoints slopes offsets : List Value) :
    Extending cfg (piecewise cfg e breakpoints slopes offsets) s := by
  refine (Block.start_of_ready ready .piecewise).bind ?_
  rintro use s₁ ⟨n, rfl, block⟩
  have none : Segmented cfg ⟨.piecewise, n⟩ s.model 0 {} s₁.model :=
    ⟨block, rfl, rfl, over_const _ _⟩
  refine none.addSegments.bind ?_
  rintro done s₂ ⟨count, segmented⟩
  cases count with
  | zero =>
    -- without a segment no selector can be on
    rw [segmented.selectors]
    exact Grows.excused rfl
  | succ count =>
    have inside : ∀ k ∈ List.range' 1 (count + 1), Part.selector k ∈ segmentParts (count + 1)
        ∧ Part.portion k ∈ segmentParts (count + 1) := by
      intro k mem
      exact ⟨mem_flatMap.mpr ⟨k, mem, by simp⟩, mem_flatMap.mpr ⟨k, mem, by simp⟩⟩
    rw [segmented.selectors, segmented.portions]
    refine (segmented.block.declareRows
      (segmented.block.linkRows_fit (by simp) ?_ ?_ (by simp) ?_ ?_
      known) (by simp [Tag.one, Tag.link]) ?_).bind fun _ s₃ block => Grows.pure ?_
    · intro p mem
      obtain ⟨k, isNumber, rfl⟩ := mem_map.mp mem
      exact (inside k isNumber).1
    · exact List.Nodup.map (fun j k same => by simpa using same) nodup_range'
    · intro p mem
      obtain ⟨k, isNumber, rfl⟩ := mem_map.mp mem
      exact (inside k isNumber).2
    · exact List.Nodup.map (fun j k same => by simpa using same) nodup_range'
    · simp [segmentTags, Tag.one, Tag.link, Tag.low, Tag.high]
    · refine block.extends (segmented.result.mono ?_)
      rintro key ⟨part, mem, rfl⟩
      exact block.knows_part mem

end Operators

end LinearProgram
