import LinearProgram.Proofs.ExactData
import LinearProgram.Proofs.NamedWildcards
import LinearProgram.Proofs.Realization

/-!
# Instances of trees

Replacing wildcards keeps what matters of a tree (`Expr.Instance`): it stays exact or constant, and
refers to no new family. Further auxiliary variables do not change its instances
(`Wildcard.expand_eq_of_alike`).
-/

namespace LinearProgram

open List

variable {e e' : Expr} {values : List Value} {name : Value} {indices : List Expr}

namespace Expr

/-- What a tree arising from another by replacement of wildcards has to do with it. -/
structure Refers (e e' : Expr) : Prop where
  families : ∀ family ∈ e'.families, family ∈ e.families
  constant : e.isConstant = true → e'.isConstant = true

/-- A tree that arises from an exact one is exact. -/
structure Instance (e e' : Expr) : Prop extends Refers e e' where
  exact : ∀ plain, e.Exact plain → e'.Exact plain

theorem Instance.refl (e : Expr) : e.Instance e :=
  ⟨⟨fun _ mem => mem, fun constant => constant⟩, fun _ exact => exact⟩

/-! ## Replacing wildcards -/

theorem exactTrees_of_instances {plain : Prop} {args new : List Expr}
    (related : Forall₂ Instance args new) (exact : ExactTrees plain args) :
    ExactTrees plain new := by
  rw [exactTrees_iff] at exact ⊢
  intro e' mem
  obtain ⟨e, inside, instance'⟩ := exists_of_forall₂ related.flip mem
  exact instance'.exact plain (exact e inside)

theorem replacing_instance : Replacing values Instance where
  kept e _ := .refl e
  renewed {e e'} renewed := by
    refine ⟨⟨renewed.marksWithin renewed.family? (fun _ => rfl) (·.families),
      renewed.isConstant (·.constant)⟩, fun plain exact => ?_⟩
    cases renewed with
    | ref | compare | range => exact trivial
    | lookup inner => exact inner.exact plain exact
    | arith first second =>
      exact ⟨exact.1, first.exact plain exact.2.1, second.exact plain exact.2.2⟩
    | negate inner => exact inner.exact plain exact
    | abs inner => exact ⟨inner.constant exact.1, inner.exact plain exact.2⟩
    | piecewise inner =>
      exact ⟨inner.exact plain exact.1,
        fun isPlain => inner.constant (exact.2.1 isPlain), exact.2.2⟩
    | aggregate _ each => exact exactTrees_of_instances each exact
    | ifThenElse first second third =>
      exact ⟨first.exact plain exact.1, second.exact plain exact.2.1, third.exact plain exact.2.2⟩

end Expr

/-! ## Expansion -/

/-- Further auxiliary variables are no instances of other families. -/
theorem Extension.alikeOn {cfg : Config} {m m' : Model} {families : List String}
    (ext : Extension cfg m m')
    (plain : ∀ family ∈ families, ¬ cfg.IsAuxiliary family) : m.AlikeOn families m' :=
  fun family mem => ⟨ext.families family (plain family mem),
    fun _ => ext.declared?_eq (plain family mem)⟩

section Alike

variable {m m' : Model} {ctx : Context} {e : Expr}

theorem resolveReference_alike (alike : m.AlikeOn (Expr.ref name indices).families m') :
    resolveReference (some m') name indices ctx
      = resolveReference (some m) name indices ctx := by
  unfold resolveReference
  refine bind_congr fun index => ?_
  dsimp only
  rw [← declares_alike alike index]
  refine bind_congr fun declared => ?_
  split
  · rfl
  · split
    case h_1 family =>
      rw [Model.hasFamily, Model.hasFamily, (alike family (mem_families_ref family indices)).1]
    case h_2 => rfl

namespace Wildcard

/-- Models that declare the same instances of a tree's families give it the same instances. -/
theorem expand_eq_of_alike (alike : m.AlikeOn e.families m') :
    expand (some m') ctx e = expand (some m) ctx e := by
  have same : seen true (expand (some m) ctx e) = _ :=
    expand_alike ⟨.refl ctx, .some alike⟩
  rw [seen_true, seen_true] at same
  exact same.symm

theorem expand_instances {registry : Option Model} {instances : List Expr}
    (expanded : expand registry ctx e = .ok instances) : ∀ i ∈ instances, e.Instance i :=
  expand_replacing .refl Expr.replacing_instance expanded

end Wildcard

end Alike

end LinearProgram
