import LinearProgram.Proofs.Outcome
import LinearProgram.Proofs.Run

/-!
# Which instances a polynomial mentions

Arithmetic invents no instances (`Polynomial.Over`). A term stays as long as nothing over the same
instance is added to it (`Polynomial.Mentions`), which is how a row keeps its auxiliary variable.
-/

namespace LinearProgram

open List

variable {terms terms' new : List (VarKey × Number)} {x : Number}

namespace Polynomial

/-- All instances of a polynomial have a property. -/
def Over (K : VarKey → Prop) (p : Polynomial) : Prop := ∀ term ∈ p.terms, K term.1

/-- An instance has a term whose coefficient is not zero. -/
def Mentions (p : Polynomial) (key : VarKey) : Prop :=
  ∃ x : Number, (key, x) ∈ p.terms ∧ x.isZero = false

variable {K : VarKey → Prop} {p q r : Polynomial} {key : VarKey}

theorem Over.mono {K' : VarKey → Prop} (inside : p.Over K) (weaker : ∀ k, K k → K' k) : p.Over K' :=
  fun term mem => weaker term.1 (inside term mem)

theorem over_const (K : VarKey → Prop) (x : Number) : (const x).Over K := by
  simp [Over, const]

theorem over_ofTerms (inside : ∀ term ∈ terms, K term.1) (x : Number) : (ofTerms terms x).Over K :=
  fun term mem => inside term (mem_filter.mp mem).1

theorem over_ofKey (known : K key) : (ofKey key).Over K :=
  over_ofTerms (by simpa using known) _

theorem over_of_isConstant (constant : p.isConstant = true) : p.Over K := by
  have none : p.terms = [] := List.isEmpty_iff.mp constant
  simp [Over, none]

theorem mentions_ofTerms {y : Number} (mem : (key, x) ∈ terms) (nonzero : x.isZero = false) :
    (ofTerms terms y).Mentions key :=
  ⟨x, mem_filter.mpr ⟨mem, by simp [nonzero]⟩, nonzero⟩

theorem mentions_ofKey (key : VarKey) : (ofKey key).Mentions key :=
  mentions_ofTerms mem_cons_self (by decide)

/-! ## Sums -/

/-- A coefficient changes in its place, or a term for a new instance goes last. -/
theorem addTerm_cases (added : addTerm key x terms = .ok terms') :
    (∃ before k y z after, terms = before ++ (k, y) :: after ∧ k.equal key = true
        ∧ y.add x = some z ∧ terms' = before ++ (k, z) :: after)
      ∨ (∀ term ∈ terms, term.1.equal key = false)
        ∧ ∃ z, Number.add (.int 0) x = some z ∧ terms' = terms ++ [(key, z)] := by
  induction terms generalizing terms' with
  | nil =>
    obtain ⟨z, sum, done⟩ := bind_eq_ok.mp added
    cases done
    exact .inr ⟨by simp, z, orOverflow_eq_ok.mp sum, rfl⟩
  | cons term rest ih =>
    unfold addTerm at added
    split at added
    case isTrue same =>
      obtain ⟨z, sum, done⟩ := bind_eq_ok.mp added
      cases done
      exact .inl ⟨[], term.1, term.2, z, rest, rfl, same, orOverflow_eq_ok.mp sum, rfl⟩
    case isFalse other =>
      obtain ⟨others, later, done⟩ := bind_eq_ok.mp added
      cases done
      rcases ih later with ⟨before, k, y, z, after, rfl, same, sum, rfl⟩ | ⟨absent, z, sum, rfl⟩
      · exact .inl ⟨term :: before, k, y, z, after, rfl, same, sum, rfl⟩
      · exact .inr ⟨forall_mem_cons.mpr ⟨by simpa using other, absent⟩, z, sum, rfl⟩

/-- Adding to a coefficient makes no second term for an instance. -/
theorem distinct_addTerm (distinct : terms.Pairwise fun a b => a.1.equal b.1 = false)
    (added : addTerm key x terms = .ok terms') :
    terms'.Pairwise fun a b => a.1.equal b.1 = false := by
  rcases addTerm_cases added with ⟨before, k, y, z, after, rfl, -, -, rfl⟩ | ⟨absent, z, -, rfl⟩
  · rw [pairwise_append, pairwise_cons] at distinct ⊢
    simpa only [forall_mem_cons] using distinct
  · exact pairwise_append.mpr ⟨distinct, pairwise_singleton _ _, by simpa using absent⟩

theorem addTerm_over (inside : ∀ term ∈ terms, K term.1) (known : K key)
    (added : addTerm key x terms = .ok terms') : ∀ term ∈ terms', K term.1 := by
  rcases addTerm_cases added with ⟨before, k, y, z, after, rfl, -, -, rfl⟩ | ⟨-, z, -, rfl⟩
  · rw [forall_mem_append, forall_mem_cons] at inside ⊢
    exact inside
  · exact forall_mem_append.mpr ⟨inside, by simpa using known⟩

theorem addTerms_over (inside : ∀ term ∈ terms, K term.1) (inside' : ∀ term ∈ new, K term.1)
    (added : new.foldlM (fun terms term => addTerm term.1 term.2 terms) terms = .ok terms') :
    ∀ term ∈ terms', K term.1 :=
  foldlM_keeps (fun terms => ∀ term ∈ terms, K term.1) added inside fun _ inside term mem _ =>
    addTerm_over inside (inside' term mem)

theorem Over.add (left : p.Over K) (right : q.Over K) (added : p.add q = .ok r) : r.Over K := by
  obtain ⟨terms, summed, added⟩ := bind_eq_ok.mp added
  obtain ⟨x, -, done⟩ := bind_eq_ok.mp added
  cases done
  exact over_ofTerms (addTerms_over left right summed) x

theorem mem_addTerm {other : VarKey} {y : Number} (mem : (key, x) ∈ terms)
    (different : key.equal other = false) (added : addTerm other y terms = .ok terms') :
    (key, x) ∈ terms' := by
  rcases addTerm_cases added with ⟨before, k, z, w, after, rfl, same, -, rfl⟩ | ⟨-, z, -, rfl⟩
  · have apart : (key, x) ≠ (k, z) := by
      rintro ⟨⟩
      exact Bool.eq_false_iff.mp different same
    exact mem_append.mpr ((mem_append.mp mem).imp_right fun later =>
      mem_cons_of_mem _ (mem_of_ne_of_mem apart later))
  · exact mem_append_left _ mem

theorem Mentions.add (mentions : p.Mentions key) (avoids : q.Over fun k => key.equal k = false)
    (added : p.add q = .ok r) : r.Mentions key := by
  obtain ⟨x, mem, nonzero⟩ := mentions
  obtain ⟨terms, summed, added⟩ := bind_eq_ok.mp added
  obtain ⟨y, -, done⟩ := bind_eq_ok.mp added
  cases done
  exact mentions_ofTerms (foldlM_keeps ((key, x) ∈ ·) summed mem fun _ mem term inside _ =>
    mem_addTerm mem (avoids term inside)) nonzero

/-! ## Multiples -/

theorem scaleTerms_keys (scaled : (terms.mapM fun term => do
      let y ← orOverflow (term.2.mul x)
      pure (term.1, y)) = Except.ok terms') : terms'.map (·.1) = terms.map (·.1) := by
  have related : Forall₂ (fun term term' : VarKey × Number => term.1 = term'.1) terms terms' :=
    forall₂_of_mapM scaled fun term _ term' one => by
      obtain ⟨y, -, same⟩ := bind_eq_ok.mp one
      cases same
      rfl
  rw [← forall₂_eq_eq_eq, forall₂_map_left_iff, forall₂_map_right_iff]
  exact related.flip.imp fun _ _ => Eq.symm

theorem Over.scale (inside : p.Over K) (scaled : p.scale x = .ok r) : r.Over K := by
  obtain ⟨terms, times, scaled⟩ := bind_eq_ok.mp scaled
  obtain ⟨y, -, done⟩ := bind_eq_ok.mp scaled
  cases done
  refine over_ofTerms ?_ y
  rw [Over, ← forall_mem_map, ← scaleTerms_keys times] at inside
  exact forall_mem_map.mp inside

theorem Over.neg (inside : p.Over K) (negated : p.neg = .ok r) : r.Over K := inside.scale negated

theorem Over.sub (left : p.Over K) (right : q.Over K) (minus : p.sub q = .ok r) :
    r.Over K := by
  obtain ⟨n, negated, added⟩ := bind_eq_ok.mp minus
  exact left.add (right.neg negated) added

theorem Mentions.sub (mentions : p.Mentions key) (avoids : q.Over fun k => key.equal k = false)
    (minus : p.sub q = .ok r) : r.Mentions key := by
  obtain ⟨n, negated, added⟩ := bind_eq_ok.mp minus
  exact mentions.add (avoids.neg negated) added

theorem Over.mul (left : p.Over K) (right : q.Over K) (times : p.mul q = .ok r) :
    r.Over K := by
  unfold Polynomial.mul at times
  split at times
  · exact right.scale times
  · split at times
    · exact left.scale times
    · exact absurd times (raise_ne_ok _ _)

theorem Over.div (left : p.Over K) (divided : p.div q = .ok r) : r.Over K := by
  unfold Polynomial.div at divided
  split at divided
  · exact absurd divided (raise_ne_ok _ _)
  · split at divided
    · exact absurd divided (raise_ne_ok _ _)
    · obtain ⟨x, -, scaled⟩ := bind_eq_ok.mp divided
      exact left.scale scaled

theorem over_ofValue {value : Value} (read : ofValue value = .ok p) : p.Over K := by
  unfold ofValue at read
  split at read
  · unfold ofNumber at read
    split at read
    · exact absurd read (raise_ne_ok _ _)
    · cases read
      exact over_const K _
  · cases read
    exact over_const K _
  · cases read
    exact over_const K _
  · exact absurd read (raise_ne_ok _ _)

end Polynomial

namespace Linearization

variable {K : VarKey → Prop} {operands : List Polynomial} {start r : Polynomial} {key : VarKey}

theorem total_over (each : ∀ p ∈ operands, p.Over K) (summed : total operands = .ok r) :
    r.Over K :=
  foldlM_keeps (Polynomial.Over K) summed (Polynomial.over_const K _) fun _ inside p mem _ =>
    inside.add (each p mem)

theorem total_mentions (each : ∀ p ∈ operands, p.Over fun k => key.equal k = false)
    (summed : total (Polynomial.ofKey key :: operands) = .ok r) : r.Mentions key := by
  obtain ⟨first, added, later⟩ := bind_eq_ok.mp summed
  have one : (Polynomial.const (.int 0)).add (Polynomial.ofKey key)
      = .ok (Polynomial.ofTerms [(key, .int 1)] (.int 0)) := rfl
  rw [one] at added
  cases added
  exact foldlM_keeps (Polynomial.Mentions · key) later
    (Polynomial.mentions_ofTerms mem_cons_self (by decide)) fun _ mentions p mem _ =>
      mentions.add (each p mem)

end Linearization

end LinearProgram
