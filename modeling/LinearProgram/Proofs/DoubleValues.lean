import LinearProgram.Proofs.ZeroSums

/-!
# Doubles as exact numbers

A finite double is a mantissa times a power of two in one way only (`IsDecoded.unique`), so doubles
that are the same integer are equal (`beq_of_compareInt`). The double of an integer is finite and
has its sign (`unpack_ofInt`).
-/

namespace LinearProgram.Double

open Float.Model Float.Model.UnpackedFloat

variable {x y : Float} {n exponent : Int}

/-! ## Decoded doubles -/

/-- What the mantissa and the exponent of a decoded double can be: a mantissa with its leading bit,
or the smallest exponent. -/
structure IsDecoded (mantissa : Nat) (exponent : Int) : Prop where
  mantissa_lt : mantissa < 2 ^ 53
  le_exponent : -1074 ≤ exponent
  smallest : mantissa < 2 ^ 52 → exponent = -1074

/-- The bits of a finite double, put together again from what it decodes to. -/
theorem ofFloat_finite {negative : Bool} {mantissa : Nat}
    (decoded : ofFloat x = .finite negative mantissa exponent) :
    IsDecoded mantissa exponent
      ∧ x.toBits.toNat = (if negative then 2 ^ 63 else 0)
        + (if mantissa < 2 ^ 52 then mantissa
          else (exponent + 1075).toNat * 2 ^ 52 + (mantissa - 2 ^ 52)) := by
  have below : x.toBits.toNat < 2 ^ 64 := x.toBits.toNat_lt
  simp only [ofFloat, Nat.pow_eq] at decoded
  split at decoded
  · split at decoded <;> cases decoded
  · split at decoded
    · cases decoded
      simp only [beq_iff_eq]
      refine ⟨⟨by omega, by omega, by omega⟩, ?_⟩
      split <;> split <;> omega
    · cases decoded
      simp only [beq_iff_eq, Int.ofNat_eq_natCast]
      refine ⟨⟨by omega, by omega, by omega⟩, ?_⟩
      split <;> split <;> omega

theorem eq_of_ofFloat {negative : Bool} {mantissa : Nat}
    (left : ofFloat x = .finite negative mantissa exponent)
    (right : ofFloat y = .finite negative mantissa exponent) : x = y := by
  rw [← Float.toBits_inj]
  exact UInt64.toNat_inj.mp ((ofFloat_finite left).2.trans (ofFloat_finite right).2.symm)

theorem magnitude_value (mantissa : Nat) (exponent : Int) :
    ((magnitude mantissa exponent).1 : ℚ)
      = mantissa * 2 ^ exponent * (magnitude mantissa exponent).2 := by
  unfold magnitude
  split
  case isTrue nonneg =>
    obtain ⟨k, rfl⟩ := Int.eq_ofNat_of_zero_le nonneg
    simp
  case isFalse negative =>
    obtain ⟨k, rfl⟩ : ∃ k : Nat, exponent = -(k : Int) := ⟨exponent.natAbs, by omega⟩
    simp

/-- Of two decoded magnitudes that are one number, the second has no larger exponent. -/
theorem IsDecoded.exponent_le {m n : Nat} {e f : Int} (left : IsDecoded m e) (right : IsDecoded n f)
    (same : (m : ℚ) * 2 ^ e = n * 2 ^ f) : f ≤ e := by
  by_contra larger
  obtain ⟨k, rfl⟩ : ∃ k : Nat, f = e + k := ⟨(f - e).toNat, by omega⟩
  have shifted : (m : ℚ) = n * 2 ^ k := by
    have power : (2 : ℚ) ^ e ≠ 0 := by positivity
    rw [zpow_add₀ two_ne_zero, zpow_natCast] at same
    exact mul_right_cancel₀ power (by rw [same]; ring)
  have whole : m = n * 2 ^ k := by exact_mod_cast shifted
  have twice : 2 * n ≤ m := by
    have one : k = (k - 1) + 1 := by omega
    have positive : 0 < 2 ^ (k - 1) := Nat.two_pow_pos _
    rw [whole, one, pow_succ]
    nlinarith
  -- so the second one lacks the leading bit, and has the smallest exponent
  have bound := left.mantissa_lt
  have small := right.smallest (by omega)
  have least := left.le_exponent
  omega

theorem IsDecoded.unique {m n : Nat} {e f : Int} (left : IsDecoded m e) (right : IsDecoded n f)
    (same : (m : ℚ) * 2 ^ e = n * 2 ^ f) : m = n ∧ e = f := by
  have exponents : e = f :=
    le_antisymm (right.exponent_le left same.symm) (left.exponent_le right same)
  subst exponents
  have power : (2 : ℚ) ^ e ≠ 0 := by positivity
  exact ⟨by exact_mod_cast mul_right_cancel₀ power same, rfl⟩

/-- A double that is an integer is finite, and its magnitude with its sign is the integer. -/
theorem finite_of_compareInt {d : Double} (equal : compareInt n d = some .eq) :
    ∃ negative mantissa exponent, d = .finite negative mantissa exponent
      ∧ (n : ℚ) = (if negative then -1 else 1) * (mantissa * 2 ^ exponent) := by
  cases d with
  | nan => cases equal
  | infinite negative => cases negative <;> cases equal
  | finite negative mantissa exponent =>
    refine ⟨negative, mantissa, exponent, rfl, ?_⟩
    have positive : (0 : ℚ) < (magnitude mantissa exponent).2 := by
      exact_mod_cast (compareInt_of_ratio (d := .finite negative mantissa exponent) rfl n).2
    have value := magnitude_value mantissa exponent
    simp only [compareInt, Option.some.injEq, Int.compare_eq_eq] at equal
    have crossed : (n : ℚ) * (magnitude mantissa exponent).2
        = if negative then -((magnitude mantissa exponent).1 : ℚ)
          else (magnitude mantissa exponent).1 := by
      cases negative <;> exact_mod_cast equal
    refine mul_right_cancel₀ positive.ne' (crossed.trans ?_)
    rw [value]
    cases negative <;> simp

theorem beq_of_ofFloat_zero {s t : Bool} (left : ofFloat x = .finite s 0 (-1074))
    (right : ofFloat y = .finite t 0 (-1074)) : (x == y) = true := by
  have plus : ofFloat 0 = .finite false 0 (-1074) := by decide
  have minus : ofFloat (-0) = .finite true 0 (-1074) := by decide
  cases s <;> cases t
  · rw [eq_of_ofFloat left plus, eq_of_ofFloat right plus]
    decide
  · rw [eq_of_ofFloat left plus, eq_of_ofFloat right minus]
    decide
  · rw [eq_of_ofFloat left minus, eq_of_ofFloat right plus]
    decide
  · rw [eq_of_ofFloat left minus, eq_of_ofFloat right minus]
    decide

theorem beq_of_compareInt (left : compareInt n (ofFloat x) = some .eq)
    (right : compareInt n (ofFloat y) = some .eq) : (x == y) = true := by
  obtain ⟨s, m, e, decoded, value⟩ := finite_of_compareInt left
  obtain ⟨t, k, f, decoded', value'⟩ := finite_of_compareInt right
  have shape := (ofFloat_finite decoded).1
  have magnitude : ∀ (sign : Bool) (m : Nat) (e : Int),
      (n : ℚ) = (if sign then -1 else 1) * (m * 2 ^ e) → |(n : ℚ)| = m * 2 ^ e := by
    intro sign m e value
    have nonneg : (0 : ℚ) ≤ m * 2 ^ e := by positivity
    rw [value]
    cases sign <;> simp [abs_of_nonneg nonneg]
  obtain ⟨rfl, rfl⟩ := shape.unique (ofFloat_finite decoded').1
    ((magnitude s m e value).symm.trans (magnitude t k f value'))
  by_cases signs : s = t
  · subst signs
    rw [eq_of_ofFloat decoded decoded', Float.beq_self_iff]
    rintro rfl
    have nan : ofFloat Float.nan = .nan := by decide
    rw [nan] at decoded'
    cases decoded'
  · -- only zero has both signs
    have zero : m = 0 := by
      have power : (2 : ℚ) ^ e ≠ 0 := by positivity
      have both : (m : ℚ) * 2 ^ e = 0 := by
        have equal := value.symm.trans value'
        cases s <;> cases t
        · exact absurd rfl signs
        · rw [if_neg (by decide), if_pos rfl] at equal
          linarith
        · rw [if_pos rfl, if_neg (by decide)] at equal
          linarith
        · exact absurd rfl signs
      exact_mod_cast (mul_eq_zero.mp both).resolve_right power
    subst zero
    obtain rfl := shape.smallest (by decide)
    exact beq_of_ofFloat_zero decoded decoded'

/-! ## Converted integers -/

theorem toNat_unpackExponent (b : BitVec 64) :
    (@unpackExponent Format.binary64 b).toNat = b.toNat / 2 ^ 52 % 2048 := by
  simp only [unpackExponent, BitVec.toNat_cast, BitVec.extractLsb_toNat, Nat.shiftRight_eq_div_pow]

theorem toNat_unpackMantissa (b : BitVec 64) :
    (@unpackMantissa Format.binary64 b).toNat = b.toNat % 2 ^ 52 := by
  simp [unpackMantissa, BitVec.extractLsb_toNat]

/-- Bits whose exponent field is not full make a finite double, which is zero only without any other
bit than the sign. -/
theorem unpack_ofBits (word : UInt64) (real : word.toNat / 2 ^ 52 % 2048 ≠ 2047) :
    (∃ s, (Float.ofBits word).toModel.unpack = .zero s ∧ word.toNat % 2 ^ 63 = 0)
      ∨ ∃ s m e positive, (Float.ofBits word).toModel.unpack = .finite s m e positive := by
  have exponent : (@unpackExponent Format.binary64 word.toBitVec).toNat
      = word.toNat / 2 ^ 52 % 2048 := toNat_unpackExponent word.toBitVec
  have mantissa : (@unpackMantissa Format.binary64 word.toBitVec).toNat
      = word.toNat % 2 ^ 52 := toNat_unpackMantissa word.toBitVec
  have model : (Float.ofBits word).toModel.unpack = UnpackedFloat.unpack Format.binary64
      (UnpackedFloat.pack Format.binary64
        (UnpackedFloat.unpack Format.binary64 word.toBitVec)) := rfl
  have notFull : @unpackExponent Format.binary64 word.toBitVec ≠ -1#_ := by
    intro full
    rw [full] at exponent
    exact real exponent.symm
  have number : @isNaNBits Format.binary64 word.toBitVec = false := by
    rw [isNaNBits, decide_eq_false_iff_not]
    exact fun nan => notFull nan.1
  rw [model, pack_unpack, number, if_neg (by decide), UnpackedFloat.unpack]
  simp only [if_neg notFull]
  split
  · split
    case isTrue low none =>
      left
      rw [low] at exponent
      rw [none] at mantissa
      simp only [BitVec.toNat_ofNat, Nat.zero_mod] at exponent mantissa
      exact ⟨_, rfl, by omega⟩
    case isFalse low some =>
      have positive : 0 < (@unpackMantissa Format.binary64 word.toBitVec).toNat := by
        rw [BitVec.toNat_pos, BitVec.pos_iff_ne_zero]
        exact some
      exact .inr ⟨_, _, _, positive, rfl⟩
  · have positive {w : Nat} (b : BitVec w) : 0 < (1#1 ++ b).toNat := by simp
    exact .inr ⟨_, _, _, positive _, rfl⟩

/-- A converted integer is finite, of the sign of the integer, and zero only if the integer is. -/
theorem unpack_ofInt (converted : ofInt? n = some x) :
    (n = 0 ∧ ∃ s, x.toModel.unpack = .zero s)
      ∨ ∃ m e positive, x.toModel.unpack = .finite (sign (decide (n < 0))) m e positive := by
  have signed := signOf_ofInt converted
  simp only [ofInt?, nearest, Option.map_eq_some_iff] at converted
  obtain ⟨bits, found, rfl⟩ := converted
  have small := nearestBits_lt found
  have word : (UInt64.ofNat (if decide (n < 0) = true then bits + Nat.pow 2 63 else bits)).toNat
      = if n < 0 then bits + 2 ^ 63 else bits := by
    rw [UInt64.toNat_ofNat', Nat.pow_eq]
    simp only [decide_eq_true_eq]
    split <;> omega
  have real : (if n < 0 then bits + 2 ^ 63 else bits) / 2 ^ 52 % 2048 ≠ 2047 := by
    split <;> omega
  rcases unpack_ofBits _ (word ▸ real) with ⟨s, zero, magnitude⟩ | ⟨s, m, e, positive, finite⟩
  · refine .inl ⟨?_, s, zero⟩
    rw [word] at magnitude
    by_contra nonzero
    have positive := nearestBits_pos (Int.natAbs_pos.mpr nonzero) found
    split at magnitude <;> omega
  · rw [finite, signOf] at signed
    simp only [reduceCtorEq, Option.some.injEq, false_or] at signed
    exact .inr ⟨m, e, positive, by rw [finite, signed]⟩

theorem ofModel_infinity (negative : Bool) :
    Float.ofModel (.pack (.infinity (sign negative))) = infinity negative := by
  cases negative <;> rfl

theorem ofInt_mul_infinity (converted : ofInt? n = some x) (nonzero : n ≠ 0) (negative : Bool) :
    x * infinity negative = infinity (decide (n < 0) ^^ negative) := by
  have model : x * infinity negative = .ofModel (.pack (UnpackedFloat.mul Format.binary64
      x.toModel.unpack (infinity negative).toModel.unpack)) := rfl
  obtain ⟨zero, -⟩ | ⟨m, e, positive, finite⟩ := unpack_ofInt converted
  · exact absurd zero nonzero
  · rw [model, unpack_infinity, finite]
    simp only [UnpackedFloat.mul, sign_mul]
    exact ofModel_infinity _

/-- An infinity stays what it is if an integer is added to it, on either side. -/
theorem ofInt_add_infinity (converted : ofInt? n = some x) (negative : Bool) :
    x + infinity negative = infinity negative ∧ infinity negative + x = infinity negative := by
  have model : x + infinity negative = .ofModel (.pack (UnpackedFloat.add Format.binary64
      x.toModel.unpack (infinity negative).toModel.unpack)) := rfl
  have model' : infinity negative + x = .ofModel (.pack (UnpackedFloat.add Format.binary64
      (infinity negative).toModel.unpack x.toModel.unpack)) := rfl
  rw [model, model', unpack_infinity]
  obtain ⟨-, s, zero⟩ | ⟨m, e, positive, finite⟩ := unpack_ofInt converted
  · rw [zero]
    exact ⟨ofModel_infinity _, ofModel_infinity _⟩
  · rw [finite]
    exact ⟨ofModel_infinity _, ofModel_infinity _⟩

theorem infinity_add_infinity (negative : Bool) :
    infinity negative + infinity negative = infinity negative := by
  cases negative <;> rfl

end LinearProgram.Double
