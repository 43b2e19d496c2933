import LinearProgram.Proofs.Registry
import LinearProgram.Proofs.Uses

/-!
# One use of an operator

Auxiliary variables and rows carry the number of their use, drawn from a counter (`Model.Numbered`):
a declaration never finds its name taken, unless a user's name begins like the generated ones or
names are too long (`Model.accepts_part`). `Block` says what a use has added so far.
-/

namespace LinearProgram

open List

variable {cfg : Config} {m : Model} {e : Error}

/-! ## What a declaration clashes with -/

namespace Assembly

theorem checkFamily_clash {key : VarKey} {kind : VariableKind} {name : String}
    (failed : checkFamily m key kind = .error e) (clash : e.clash? = some name) :
    name = key.text := by
  unfold checkFamily at failed
  split at failed
  · cases failed
  · split at failed
    · cases clash_of_raise failed clash
      rfl
    · split at failed
      · split at failed
        · cases failed
        · cases clash_of_raise failed clash
          rfl
      · cases failed
        cases clash

/-- An instance that clashes is named, and the model does not accept it. -/
theorem addVariable_clash {key : VarKey} {kind : VariableKind} {lower upper : Option Number}
    {desc : Value} {auxiliary : Bool} {s s' : Store} {name : String}
    (failed : (addVariable cfg key kind lower upper desc auxiliary).run s
      = (.error e, s')) (clash : e.clash? = some name) :
    name = key.text ∧ ∀ v : Variable, v.key = key → v.kind = kind → ¬ s.model.Accepts cfg v := by
  unfold addVariable at failed
  simp only [run_bind, run_model, run_lift] at failed
  cases fits : checkFamily s.model key kind with
  | error =>
    rw [fits] at failed
    cases failed
    refine ⟨checkFamily_clash fits clash, ?_⟩
    rintro v rfl rfl accepted
    rw [accepted.fits] at fits
    cases fits
  | ok =>
    cases legal : key.isKey with
    | false =>
      rw [fits, legal] at failed
      cases failed
      cases clash
    | true =>
      cases known : s.model.declared? key with
      | some v =>
        rw [fits, legal, known] at failed
        cases failed
        refine ⟨(Option.some.inj clash).symm, ?_⟩
        rintro v rfl rfl accepted
        rw [accepted.fresh] at known
        cases known
      | none =>
        simp only [fits, legal, known, run_bind, run_lift, Bool.not_true, Bool.false_eq_true,
          ↓reduceIte, Option.isSome_none] at failed
        cases limited : cfg.nameLimit with
        | error =>
          rw [limited] at failed
          cases failed
          rw [(clashFree_nameLimit cfg).of_error limited] at clash
          cases clash
        | ok limit =>
          simp only [limited, run_report] at failed
          cases free : s.model.variableNamed? (Name.ofKey limit key) with
          | some =>
            rw [free] at failed
            cases failed
            refine ⟨(Option.some.inj clash).symm, ?_⟩
            rintro v rfl rfl accepted
            obtain ⟨limit', limited', named⟩ := accepted.named
            cases limited.symm.trans limited'
            have taken := accepted.free
            rw [named, free] at taken
            cases taken
          | none =>
            rw [free] at failed
            cases auxiliary <;> cases failed

/-- A row that clashes is named, and the model does not accept it. Only the log has changed. -/
theorem storeConstraint_clash {rawName : String} {lhs rhs : Polynomial} {rel : Relation}
    {desc : Value} {s s' : Store}
    (failed : (storeConstraint cfg (.str rawName) lhs rhs rel desc).run s
      = (.error e, s')) :
    s'.model = s.model ∧ ∀ name, e.clash? = some name →
      name = rawName ∧ ∀ c : Constraint, c.rawName = rawName → ¬ s.model.AcceptsRow cfg c := by
  obtain ⟨before, after, entry, inner, exit⟩ := run_transaction_error failed
  simp only [run_bind, constraintName, run_pure, run_lift] at inner
  cases limited : cfg.nameLimit with
  | error =>
    rw [limited] at inner
    cases inner
    refine ⟨exit ⟨before.log, rfl⟩, fun name clash => ?_⟩
    rw [(clashFree_nameLimit cfg).of_error limited] at clash
    cases clash
  | ok =>
    simp only [limited, run_report] at inner
    split at inner
    case isTrue reserved =>
      cases inner
      refine ⟨exit ⟨_, rfl⟩, fun name clash => ⟨(Option.some.inj clash).symm, ?_⟩⟩
      rintro c rfl accepted
      obtain ⟨limit', limited', named⟩ := accepted.named
      cases limited.symm.trans limited'
      exact accepted.unreserved (named.trans (by simpa using reserved))
    case isFalse =>
      simp only [run_bind, run_model] at inner
      split at inner
      case h_1 other taken =>
        have refused : ∀ c : Constraint, c.rawName = rawName →
            ¬ s.model.AcceptsRow cfg c := by
          rintro c rfl accepted
          obtain ⟨limit', limited', named⟩ := accepted.named
          cases limited.symm.trans limited'
          have free := accepted.free
          rw [named, ← entry] at free
          have same := taken.symm.trans free
          cases same
        split at inner
        · cases inner
          exact ⟨exit ⟨_, rfl⟩, fun name clash => ⟨(Option.some.inj clash).symm, refused⟩⟩
        · cases inner
          exact ⟨exit ⟨_, rfl⟩, fun name clash => ⟨(Option.some.inj clash).symm, refused⟩⟩
      case h_2 => cases inner

end Assembly

/-! ## Names that nobody has taken -/

namespace Model

/-- No name that a user gave begins like the generated ones. -/
structure Tidy (m : Model) : Prop where
  columns : ∀ v ∈ m.columns, v.auxiliary = false → ¬ "aux_".toList <+: v.name.toList
  rows : ∀ c ∈ m.constraints, c.description ≠ .none → ¬ "aux_".toList <+: c.name.toList

/-- The generated names are short enough to be kept as they are. -/
structure Short (m : Model) : Prop where
  columns : ∀ v ∈ m.columns, v.auxiliary = true → v.rawName.length ≤ 255
  rows : ∀ c ∈ m.constraints, c.description = .none → c.rawName.length ≤ 255

/-- Every auxiliary variable is a part of a use, and every row that nobody named is a row of a use
or has an automatic name. -/
structure Numbered (cfg : Config) (used : Use → Part → Prop) (tagged : Use → Tag → Prop)
    (m : Model) : Prop where
  columns : ∀ v ∈ m.columns, v.auxiliary = true →
    ∃ u part, used u part ∧ v.key = u.key cfg part ∧ v.kind = u.kind part
  rows : ∀ c ∈ m.constraints, c.description = .none →
    (∃ k, c.rawName = Assembly.constraintId k)
      ∨ ∃ u tag, tagged u tag ∧ c.rawName = u.rowName cfg tag

variable {m : Model} {used : Use → Part → Prop} {tagged : Use → Tag → Prop} {u : Use}
  {part : Part} {tag : Tag} {v : Variable} {c : Constraint}

theorem Registered.name_default (registered : m.Registered {}) (mem : v ∈ m.columns) :
    v.name = Name.ofKey 255 v.key := by
  obtain ⟨limit, limited, named⟩ := registered.named v mem
  cases limited
  exact named

theorem Registered.row_name_default (registered : m.Registered {}) (mem : c ∈ m.constraints) :
    c.name = Name.sanitize 255 c.rawName := by
  obtain ⟨-, limit, limited, named⟩ := registered.rows_named c mem
  cases limited
  exact named

/-- In a tidy model, the families of auxiliary variables have no other members. -/
theorem Tidy.auxiliary (tidy : m.Tidy) (registered : m.Registered {}) (mem : v ∈ m.columns)
    (same : v.key.family = u.partFamily {} part) : v.auxiliary = true := by
  by_contra user
  refine tidy.columns v mem (by simpa using user) ?_
  rw [registered.name_default mem]
  exact Use.begins_of_family same

theorem checkFamily_part (registered : m.Registered {}) (numbered : m.Numbered {} used tagged)
    (tidy : m.Tidy) : Assembly.checkFamily m (u.key {} part) (u.kind part) = .ok () := by
  have uniform : ∀ w ∈ m.columns, w.key.family = u.partFamily {} part →
      (∃ index, w.key = VarKey.numbered w.key.family index)
        ∧ w.key.index.length = (u.partIndex part).length ∧ w.kind = u.kind part := by
    intro w mem same
    obtain ⟨u', part', -, key, kind⟩ :=
      numbered.columns w mem (tidy.auxiliary registered mem same)
    rw [key] at same
    obtain ⟨arity, kinds⟩ := Use.uniform_of_partFamily same
    refine ⟨⟨u'.partIndex part', by rw [key]; rfl⟩, ?_, kind.trans kinds⟩
    rw [key, ← arity]
    simp [Use.key, VarKey.numbered]
  have family : (u.key {} part).family = u.partFamily {} part := rfl
  unfold Assembly.checkFamily
  split
  case h_1 => rfl
  case h_2 first rest known =>
    have listed : first ∈ m.tuplesOf (u.partFamily {} part) := by
      rw [← registered.indexTuples, ← family, known]
      exact mem_cons_self
    obtain ⟨w, mem, key⟩ := mem_tuplesOf.mp listed
    obtain ⟨⟨index, numbered⟩, arity, -⟩ := uniform w mem (by rw [key])
    rw [if_neg]
    · cases found : m.declared? ⟨(u.key {} part).family, first⟩ with
      | some w' =>
        obtain ⟨mem', same⟩ := declared?_some found
        exact if_pos (uniform w' mem' (VarKey.family_of_equal same)).2.2
      | none =>
        -- the first tuple is that of a declared instance
        have absent := find?_eq_none.mp found w mem
        rw [family, ← key, numbered, VarKey.numbered_equal_numbered] at absent
        exact absurd ⟨rfl, rfl⟩ absent
    · rw [key] at arity
      simp [arity, Use.key, VarKey.numbered]

/-- A model accepts a part that no use has declared yet. -/
theorem accepts_part (registered : m.Registered {}) (numbered : m.Numbered {} used tagged)
    (tidy : m.Tidy) (short : m.Short) (unused : ¬ used u part)
    (fits : (u.key {} part).text.length ≤ 255) (key : v.key = u.key {} part)
    (kind : v.kind = u.kind part) (name : v.name = Name.ofKey 255 v.key) : m.Accepts {} v := by
  have others : ∀ w ∈ m.columns, w.key.equal v.key = false ∧ w.name ≠ v.name := by
    intro w mem
    cases auxiliary : w.auxiliary with
    | false =>
      have plain := tidy.columns w mem auxiliary
      refine ⟨?_, fun same => plain ?_⟩
      · rw [Bool.eq_false_iff]
        intro same
        have family : w.key.family = u.partFamily {} part := by
          rw [VarKey.family_of_equal same, key]
          rfl
        rw [tidy.auxiliary registered mem family] at auxiliary
        cases auxiliary
      · rw [same, name]
        exact Use.begins_of_family (by rw [key]; rfl)
    | true =>
      obtain ⟨u', part', known, key', -⟩ := numbered.columns w mem auxiliary
      have different : ¬ (u' = u ∧ part' = part) := by
        rintro ⟨rfl, rfl⟩
        exact unused known
      refine ⟨?_, fun same => different ?_⟩
      · rw [Bool.eq_false_iff, key, key']
        exact fun same => different (Use.key_inj same)
      · have length : (u'.key {} part').text.length ≤ 255 := by
          rw [← key']
          exact short.columns w mem auxiliary
        rw [registered.name_default mem, name, key, key', Use.ofKey_key length,
          Use.ofKey_key fits] at same
        exact Use.text_key_inj same
  refine ⟨?_, ?_, ?_, ⟨255, rfl, name⟩, ?_⟩
  · rw [key, kind]
    exact checkFamily_part registered numbered tidy
  · rw [key]
    exact VarKey.isKey_numbered _ _
  · exact find?_eq_none.mpr fun w mem => by simp [(others w mem).1]
  · rw [variableNamed?, registered.variableNames, Option.map_eq_none_iff, find?_eq_none]
    intro entry mem
    obtain ⟨w, known, rfl⟩ := mem_map.mp mem
    simpa using (others w known).2

theorem not_begins_constraintId (k : Nat) :
    ¬ "aux_".toList <+: (Name.sanitize 255 (Assembly.constraintId k)).toList := by
  intro begins
  have chars : ∃ rest, (Assembly.constraintId k).toList = 'c' :: rest := by
    simp [Assembly.constraintId]
  obtain ⟨rest, chars⟩ := chars
  have initial : (Name.sanitize 255 (Assembly.constraintId k)).toList
      <+: 'c' :: Name.mask Name.isLegal rest := by
    rw [Name.sanitize, String.toList_ofList, chars]
    exact Name.cut_isPrefix 255 _
  have first := (cons_prefix_cons.mp (begins.trans initial)).1
  exact absurd first (by decide)

/-- A model accepts a row that no use has declared yet. -/
theorem acceptsRow_tag (registered : m.Registered {}) (numbered : m.Numbered {} used tagged)
    (tidy : m.Tidy) (short : m.Short) (unused : ¬ tagged u tag)
    (fits : (u.rowName {} tag).length ≤ 255) (rawName : c.rawName = u.rowName {} tag)
    (name : c.name = Name.sanitize 255 c.rawName) : m.AcceptsRow {} c := by
  have plain : c.name = u.rowName {} tag := by rw [name, rawName, Use.sanitize_rowName fits]
  have begins : "aux_".toList <+: c.name.toList := by
    rw [plain]
    exact u.rowName_begins tag
  refine ⟨⟨255, rfl, name⟩, ?_, ?_⟩
  · intro reserved
    rw [reserved] at begins
    exact absurd begins (by decide)
  · rw [constraintNamed?, registered.constraintNames, Option.map_eq_none_iff, find?_eq_none]
    intro entry mem
    obtain ⟨row, known, rfl⟩ := mem_map.mp mem
    have named := registered.row_name_default known
    simp only [beq_iff_eq]
    intro same
    rw [← same] at begins
    by_cases user : row.description = .none
    · rcases numbered.rows row known user with ⟨k, auto⟩ | ⟨u', tag', taken, generated⟩
      · rw [named, auto] at begins
        exact not_begins_constraintId k begins
      · have length : (u'.rowName {} tag').length ≤ 255 := by
          rw [← generated]
          exact short.rows row known user
        rw [named, generated, Use.sanitize_rowName length, plain] at same
        obtain ⟨rfl, rfl⟩ := Use.rowName_inj same
        exact unused taken
    · exact tidy.rows row known user begins

end Model

/-! ## What has been added -/

def Model.Knows (m : Model) (key : VarKey) : Prop := (m.declared? key).isSome = true

/-- A row over declared instances that says something about them. -/
structure Constraint.Grounded (m : Model) (c : Constraint) : Prop where
  lhs : c.lhs.Over m.Knows
  rhs : c.rhs.Over m.Knows
  difference : ∃ d, c.difference = .ok d ∧ d.isConstant = false

/-- `m'` has the given columns and rows after those of `m`, and otherwise agrees with it in all that
statements declare. -/
structure Model.Adds (m : Model) (columns : List Variable) (rows : List Constraint) (m' : Model) :
    Prop where
  columns : m'.columns = m.columns ++ columns
  constraints : m'.constraints = m.constraints ++ rows
  families : m.families.map (·.1) <+: m'.families.map (·.1)
  objective : m'.objective = m.objective
  declarations : m'.declarations = m.declarations

namespace Model.Adds

variable {m m₁ m₂ : Model} {columns columns' : List Variable} {rows rows' : List Constraint}

theorem of_same (counters : List (String × Nat)) : m.Adds [] [] { m with counters } :=
  ⟨(append_nil _).symm, (append_nil _).symm, prefix_rfl, rfl, rfl⟩

theorem trans (first : m.Adds columns rows m₁) (second : m₁.Adds columns' rows' m₂) :
    m.Adds (columns ++ columns') (rows ++ rows') m₂ where
  columns := by rw [second.columns, first.columns, append_assoc]
  constraints := by rw [second.constraints, first.constraints, append_assoc]
  families := first.families.trans second.families
  objective := second.objective.trans first.objective
  declarations := second.declarations.trans first.declarations

theorem addVariable (m : Model) (v : Variable) : m.Adds [v] [] (m.addVariable v) where
  columns := rfl
  constraints := (append_nil _).symm
  families := by
    show m.families.map (·.1) <+: (addIndex v.key.family v.key.index m.families).map (·.1)
    rw [names_addIndex]
    exact prefix_append _ _
  objective := rfl
  declarations := rfl

theorem addConstraint (m : Model) (c : Constraint) (counters : List (String × Nat)) :
    m.Adds [] [c] { m.addConstraint c with counters } :=
  ⟨(append_nil _).symm, rfl, prefix_rfl, rfl, rfl⟩

theorem knows (adds : m.Adds columns rows m₁) {key : VarKey} (known : m.Knows key) :
    m₁.Knows key := by
  unfold Knows declared? at known ⊢
  rw [adds.columns, find?_append]
  cases found : m.columns.find? fun v => v.key.equal key with
  | none => simp [found] at known
  | some => rfl

theorem indexTuples (adds : m.Adds columns rows m₁) (registered : m.Registered cfg)
    (registered' : m₁.Registered cfg) (family : String) :
    m.indexTuples family <+: m₁.indexTuples family := by
  rw [registered.indexTuples, registered'.indexTuples, tuplesOf, tuplesOf, adds.columns,
    filter_append, map_append]
  exact prefix_append _ _

/-- The numbering goes on over what is added, which has to be numbered itself. -/
theorem numbered {used used' : Use → Part → Prop} {tagged tagged' : Use → Tag → Prop}
    (adds : m.Adds columns rows m₁) (before : m.Numbered cfg used tagged)
    (parts : ∀ u part, used u part → used' u part) (tags : ∀ u tag, tagged u tag → tagged' u tag)
    (newColumns : ∀ v ∈ columns, v.auxiliary = true →
      ∃ u part, used' u part ∧ v.key = u.key cfg part ∧ v.kind = u.kind part)
    (newRows : ∀ c ∈ rows, c.description = .none → (∃ k, c.rawName = Assembly.constraintId k)
      ∨ ∃ u tag, tagged' u tag ∧ c.rawName = u.rowName cfg tag) :
    m₁.Numbered cfg used' tagged' := by
  refine ⟨fun v mem auxiliary => ?_, fun c mem unnamed => ?_⟩
  · rw [adds.columns] at mem
    rcases mem_append.mp mem with old | new
    · obtain ⟨u, part, known, rest⟩ := before.columns v old auxiliary
      exact ⟨u, part, parts u part known, rest⟩
    · exact newColumns v new auxiliary
  · rw [adds.constraints] at mem
    rcases mem_append.mp mem with old | new
    · rcases before.rows c old unnamed with auto | ⟨u, tag, known, name⟩
      · exact .inl auto
      · exact .inr ⟨u, tag, tags u tag known, name⟩
    · exact newRows c new unnamed

end Model.Adds

theorem Constraint.Grounded.mono {m' : Model} {c : Constraint} (grounded : c.Grounded m)
    (known : ∀ key, m.Knows key → m'.Knows key) : c.Grounded m' :=
  ⟨grounded.lhs.mono known, grounded.rhs.mono known, grounded.difference⟩

/-- What one use of an operator has added. -/
structure Expansion where
  use : Use
  columns : List Variable := []
  rows : List Constraint := []

/-- The variables of a use are auxiliary, and each of its rows mentions one of them. -/
structure Expansion.Proper (cfg : Config) (m : Model) (x : Expansion) : Prop where
  columns : ∀ v ∈ x.columns, v.auxiliary = true ∧ ∃ part, v.key = x.use.key cfg part
  rows : ∀ c ∈ x.rows, (∃ tag, c.rawName = x.use.rowName cfg tag) ∧ c.Grounded m
    ∧ ∃ v ∈ x.columns, c.lhs.Mentions v.key

theorem Expansion.Proper.mono {m' : Model} {x : Expansion} (proper : x.Proper cfg m)
    (known : ∀ key, m.Knows key → m'.Knows key) : x.Proper cfg m' := by
  refine ⟨proper.columns, fun c mem => ?_⟩
  obtain ⟨named, grounded, mentions⟩ := proper.rows c mem
  exact ⟨named, grounded.mono known, mentions⟩

/-- `m'` has grown from `m` by uses of operators alone. -/
def Model.Conservative (cfg : Config) (m m' : Model) : Prop :=
  ∃ expansions : List Expansion,
    m.Adds (expansions.flatMap (·.columns)) (expansions.flatMap (·.rows)) m'
      ∧ ∀ x ∈ expansions, x.Proper cfg m'

namespace Model.Conservative

variable {cfg : Config} {m m₁ m₂ : Model}

theorem refl (cfg : Config) (m : Model) : m.Conservative cfg m :=
  ⟨[], Adds.of_same m.counters, by simp⟩

theorem trans (first : m.Conservative cfg m₁) (second : m₁.Conservative cfg m₂) :
    m.Conservative cfg m₂ := by
  obtain ⟨xs, adds, proper⟩ := first
  obtain ⟨ys, adds', proper'⟩ := second
  refine ⟨xs ++ ys, ?_, ?_⟩
  · rw [flatMap_append, flatMap_append]
    exact adds.trans adds'
  · intro x mem
    rcases mem_append.mp mem with old | new
    · exact (proper x old).mono fun key => adds'.knows
    · exact proper' x new

theorem knows (conservative : m.Conservative cfg m₁) {key : VarKey} (known : m.Knows key) :
    m₁.Knows key := by
  obtain ⟨xs, adds, -⟩ := conservative
  exact adds.knows known

end Model.Conservative

/-! ## A use under way -/

/-- A counter has got to the number of a use. -/
def Model.Reached (cfg : Config) (m : Model) (u : Use) : Prop :=
  u.number ≤ m.counter (u.family cfg)

/-- The tables agree, and the counters have got to every use. -/
structure Model.Ready (cfg : Config) (m : Model) : Prop where
  coherent : m.Coherent
  registered : m.Registered cfg
  numbered : m.Numbered cfg (fun u _ => m.Reached cfg u) (fun u _ => m.Reached cfg u)

/-- The use `u`, which began at the model `start`, has declared these parts and rows. -/
structure Block (cfg : Config) (u : Use) (start : Model) (parts : List Part) (tags : List Tag)
    (m : Model) : Prop where
  coherent : m.Coherent
  registered : m.Registered cfg
  reached : m.Reached cfg u
  numbered : m.Numbered cfg (fun u' part => m.Reached cfg u' ∧ (u' = u → part ∈ parts))
    (fun u' tag => m.Reached cfg u' ∧ (u' = u → tag ∈ tags))
  fresh : ∀ part ∈ parts, start.declared? (u.key cfg part) = none
  added : ∃ x : Expansion, x.use = u ∧ x.Proper cfg m ∧ start.Adds x.columns x.rows m
    ∧ x.columns.map (·.key) = parts.map (u.key cfg)

/-- An error that is no clash, or one that untidy or long names explain. -/
def Excused (cfg : Config) (m : Model) (e : Error) : Prop :=
  cfg = {} → m.Tidy → m.Short → ∀ name, e.clash? = some name → 255 < name.length

/-- From a store, a step leads to a model as described, or fails with an excuse. -/
def Grows (cfg : Config) {α : Type} (x : Assembly α) (s : Store) (good : α → Model → Prop) :
    Prop :=
  match x.run s with
  | (.ok a, s') => good a s'.model
  | (.error e, s') => Excused cfg s'.model e

namespace Grows

variable {cfg : Config} {α β : Type} {s : Store} {f : α → Assembly β} {good : α → Model → Prop}
  {result : Except Error α}

theorem pure {a : α} (holds : good a s.model) :
    Grows cfg (pure a) s good := holds

theorem bind {x : Assembly α} {between : α → Model → Prop} {good : β → Model → Prop}
    (first : Grows cfg x s between)
    (rest : ∀ a s', between a s'.model → Grows cfg (f a) s' good) :
    Grows cfg (x >>= f) s good := by
  unfold Grows at first ⊢
  rw [Assembly.run_bind]
  rcases ran : x.run s with ⟨e | a, s'⟩
  · rw [ran] at first
    exact first
  · rw [ran] at first
    exact rest a s' first

theorem excused (free : e.clash? = none) : Excused cfg m e := by
  intro _ _ _ name clash
  rw [free] at clash
  cases clash

theorem lift (free : ClashFree result) (holds : ∀ a, result = .ok a → good a s.model) :
    Grows cfg (liftM result : Assembly α) s good := by
  unfold Grows
  rw [Assembly.run_lift]
  cases result with
  | error e => exact excused free
  | ok a => exact holds a rfl

theorem lift_bind {good : β → Model → Prop} (free : ClashFree result)
    (rest : ∀ a, result = .ok a → Grows cfg (f a) s good) :
    Grows cfg ((liftM result : Assembly α) >>= f) s good := by
  unfold Grows
  rw [Assembly.run_bind, Assembly.run_lift]
  cases result with
  | error e => exact excused free
  | ok a => exact rest a rfl

theorem refuse {cause : Cause} (free : cause.clash? = none) :
    Grows cfg (Assembly.refuse cause : Assembly α) s good :=
  lift (clashFree_raise free) fun a ok => absurd ok (raise_ne_ok cause a)

theorem refuse_bind {cause : Cause} {good : β → Model → Prop} (free : cause.clash? = none) :
    Grows cfg (Assembly.refuse cause >>= f) s good :=
  lift_bind (clashFree_raise free) fun a ok => absurd ok (raise_ne_ok cause a)

theorem model_bind {f : Model → Assembly β} {good : β → Model → Prop}
    (rest : Grows cfg (f s.model) s good) : Grows cfg (Assembly.model >>= f) s good := rest

theorem mono {x : Assembly α} {good' : α → Model → Prop} (grows : Grows cfg x s good)
    (weaker : ∀ a m, good a m → good' a m) : Grows cfg x s good' := by
  unfold Grows at grows ⊢
  rcases ran : x.run s with ⟨e | a, s'⟩
  · rw [ran] at grows
    exact grows
  · rw [ran] at grows
    exact weaker a s'.model grows

theorem ite {p : Prop} [Decidable p] {x y : Assembly α} (yes : p → Grows cfg x s good)
    (no : ¬ p → Grows cfg y s good) : Grows cfg (if p then x else y) s good := by
  split
  case isTrue holds => exact yes holds
  case isFalse fails => exact no fails

theorem mapM {I : Model → Prop} (holds : I s.model)
    (step : ∀ a (s : Store), I s.model → Grows cfg (f a) s fun _ m => I m) (l : List α) :
    Grows cfg (l.mapM f) s fun _ m => I m := by
  induction l generalizing s with
  | nil => exact pure holds
  | cons a _ ih =>
    rw [mapM_cons]
    exact (step a s holds).bind fun _ s₁ holds₁ => (ih holds₁).bind fun _ s₂ holds₂ => pure holds₂

theorem forM {f : α → Assembly PUnit} {I : Model → Prop} (holds : I s.model)
    (step : ∀ a (s : Store), I s.model → Grows cfg (f a) s fun _ m => I m) (l : List α) :
    Grows cfg (l.forM f) s fun _ m => I m := by
  induction l generalizing s with
  | nil => exact pure holds
  | cons a _ ih => exact (step a s holds).bind fun _ s₁ holds₁ => ih holds₁

end Grows

end LinearProgram
