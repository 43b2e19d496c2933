import LinearProgram.Proofs.Enumeration
import LinearProgram.Proofs.NamedWildcards

/-!
# A filter may stand anywhere after the names it reads

A list of generators and filters can be cut at any place (`complete_append`). Generators that bind
none of a filter's names hand on contexts that agree on them (`alikeOn_of_mem_bindings`), so the
filter may be asked before them (`items_filter_comm`), if the loops complete.
-/

namespace LinearProgram

open List

section Placement

variable {first second middle rest : List GeneratorItem} {ctx inner : Context} {cond : Expr}

/-- A loop that completes, cut in two: both parts complete, and the second one runs through under
each context of the first. -/
theorem complete_append (complete : (bindings (first ++ second) ctx).stop = none) :
    (bindings first ctx).stop = none
      ∧ (∀ inner ∈ (bindings first ctx).items, (bindings second inner).stop = none)
      ∧ (bindings (first ++ second) ctx).items
        = (bindings first ctx).items.flatMap fun inner => (bindings second inner).items := by
  induction first generalizing ctx with
  | nil =>
    refine ⟨rfl, fun inner mem => ?_, ?_⟩
    · cases mem_singleton.mp mem
      exact complete
    · simp [bindings]
  | cons item rest ih =>
    rw [cons_append] at complete ⊢
    cases item with
    | filter =>
      rw [bindings] at complete ⊢
      rw [bindings]
      split at complete
      case h_1 => exact ih complete
      case h_2 => simp
      case h_3 => cases complete
    | generator name =>
      obtain ⟨values, given, each⟩ := complete_generator complete
      rw [bindings, given] at complete ⊢
      rw [bindings, given]
      dsimp only at complete ⊢
      -- the loop over the values completes without the second part as well
      have shorter : (Listing.chain (fun v => bindings rest (ctx.bind name v)) values).stop
          = none := Listing.chain_complete.mpr fun v known => (ih (each v known)).1
      rw [Listing.items_chain complete, Listing.items_chain shorter, flatMap_assoc]
      refine ⟨shorter, fun inner mem => ?_, ?_⟩
      · obtain ⟨v, known, within⟩ := mem_flatMap.mp mem
        exact (ih (each v known)).2.1 inner within
      · exact flatMap_congr fun v known => (ih (each v known)).2.2

/-- Generators hand on contexts that agree with the first one on the names they do not bind. -/
theorem alikeOn_of_mem_bindings {names : List String}
    (unbound : ∀ name ∈ boundNames middle, name ∉ names)
    (mem : inner ∈ (bindings middle ctx).items) : Context.AlikeOn names ctx inner where
  bindings name known :=
    (get?_of_mem_bindings (fun bound => unbound name bound known) mem).symm
  parameters name _ :=
    of_mem_bindings (P := fun c => ctx.parameters.table.get? name = c.parameters.table.get? name)
      (fun _ _ _ _ same => same) rfl mem
  host :=
    of_mem_bindings (P := fun c => ctx.parameters.host = c.parameters.host)
      (fun _ _ _ _ same => same) rfl mem

/-- Under one context: a filter before generators that bind none of its names, and behind them. -/
theorem items_filter_comm (unbound : ∀ name ∈ boundNames middle, name ∉ cond.symbols)
    (late : (bindings (middle ++ .filter cond :: rest) ctx).stop = none)
    (early : (bindings (.filter cond :: (middle ++ rest)) ctx).stop = none) :
    (bindings (middle ++ .filter cond :: rest) ctx).items
      = (bindings (.filter cond :: (middle ++ rest)) ctx).items := by
  obtain ⟨-, each, items⟩ := complete_append late
  have verdict : ∀ inner ∈ (bindings middle ctx).items,
      cond.evaluate inner = .ok (.bool true) ↔ cond.evaluate ctx = .ok (.bool true) := by
    intro inner mem
    have same : EvaluateAlike false ctx inner cond cond :=
      cond.evaluatesByNames ctx inner ⟨alikeOn_of_mem_bindings unbound mem, nofun⟩
    exact (ok_iff_of_seen same.value).symm
  rw [items]
  rcases bindings_filter early with ⟨holds, passed⟩ | ⟨fails, stopped⟩
  · have complete : (bindings (middle ++ rest) ctx).stop = none := passed ▸ early
    rw [passed, (complete_append complete).2.2]
    refine flatMap_congr fun inner mem => ?_
    rcases bindings_filter (each inner mem) with ⟨-, passed'⟩ | ⟨fails, -⟩
    · rw [passed']
    · exact absurd ((verdict inner mem).mpr holds) fails
  · rw [stopped, flatMap_eq_nil_iff]
    intro inner mem
    rcases bindings_filter (each inner mem) with ⟨holds, -⟩ | ⟨-, stopped'⟩
    · exact absurd ((verdict inner mem).mp holds) fails
    · rw [stopped']

end Placement

/-- **A filter may stand anywhere after the names it reads.** If the steps between two places bind
no name of the filter, a loop with the filter in the one place and a loop with it in the other give
rise to the same contexts in the same order, as long as both complete. -/
theorem filter_placement (before middle after : List GeneratorItem) (cond : Expr)
    (ctx : Context) (unbound : ∀ name ∈ boundNames middle, name ∉ cond.symbols)
    (late : (bindings (before ++ middle ++ [.filter cond] ++ after) ctx).stop = none)
    (early : (bindings (before ++ [.filter cond] ++ middle ++ after) ctx).stop = none) :
    (bindings (before ++ middle ++ [.filter cond] ++ after) ctx).items
      = (bindings (before ++ [.filter cond] ++ middle ++ after) ctx).items := by
  simp only [List.append_assoc, List.singleton_append] at late early ⊢
  obtain ⟨-, eachLate, itemsLate⟩ := complete_append late
  obtain ⟨-, eachEarly, itemsEarly⟩ := complete_append early
  rw [itemsLate, itemsEarly]
  exact List.flatMap_congr fun inner member =>
    items_filter_comm unbound (eachLate inner member) (eachEarly inner member)

/-- The cells of a triangle, without the second row and the second column. -/
theorem triangle_placement :
    let rows : List GeneratorItem := [.generator "i" (.data (.tuple [.int 1, .int 2, .int 3]))]
    let cells : List GeneratorItem :=
      [.generator "j" (.tree (.range (.literal (.int 1)) (.symbol "i"))),
        .filter (.compare .ne (.symbol "j") (.literal (.int 2)))]
    let odd : Expr := .compare .ne (.symbol "i") (.literal (.int 2))
    let marks : List GeneratorItem := [.generator "k" (.data (.list [.str "a"]))]
    let late := bindings (rows ++ cells ++ [.filter odd] ++ marks) {}
    let early := bindings (rows ++ [.filter odd] ++ cells ++ marks) {}
    late.stop = none ∧ early.stop = none
      ∧ late.items.map (·.bindings.map (·.2))
        = [[.int 1, .int 1, .str "a"], [.int 3, .int 1, .str "a"], [.int 3, .int 3, .str "a"]]
      ∧ late.items = early.items :=
  ⟨rfl, rfl, rfl, filter_placement _ _ _ _ {} (by decide) rfl rfl⟩

end LinearProgram
