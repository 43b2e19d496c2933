import Mathlib
import LinearProgram.Number.Basic

/-!
# Doubles at the ends of the line

A missing bound is an infinity, so intervals mix integers with doubles. A sum with an infinity or
NaN is never finite (`Beyond`), and equal doubles compare alike with every integer
(`compareInt_congr`).
-/

namespace LinearProgram.Double

open Float.Model Float.Model.UnpackedFloat

variable {negative : Bool} {x : Float}

/-! ## Order -/

theorem compareInt_zero (n : Int) (s t : Bool) (e : Int) :
    compareInt n (.finite s 0 e) = compareInt n (.finite t 0 e) := by
  have none : (magnitude 0 e).1 = 0 := by
    unfold magnitude
    split <;> simp
  cases s <;> cases t <;> simp [compareInt, none]

theorem compareInt_congr {y : Float} (same : (x == y) = true) (n : Int) :
    compareInt n (ofFloat x) = compareInt n (ofFloat y) := by
  have plus : ofFloat 0 = .finite false 0 (-1074) := by decide
  have minus : ofFloat (-0) = .finite true 0 (-1074) := by decide
  obtain ⟨_, _, rfl | ⟨rfl, rfl⟩ | ⟨rfl, rfl⟩⟩ := Float.beq_iff_ne_nan_and_eq.mp same
  · rfl
  · rw [plus, minus]
    exact compareInt_zero n _ _ _
  · rw [plus, minus]
    exact compareInt_zero n _ _ _

/-- A double with an exact value compares with integers as that value does. -/
theorem compareInt_of_ratio {d : Double} {num : Int} {den : Nat}
    (ratio : d.ratio? = some (num, den)) (n : Int) :
    d.compareInt n = some (compare (n * (den : Int)) num) ∧ 0 < den := by
  cases d with
  | nan | infinite => cases ratio
  | finite =>
    simp only [ratio?, Option.some.injEq, Prod.mk.injEq] at ratio
    obtain ⟨rfl, rfl⟩ := ratio
    refine ⟨rfl, ?_⟩
    unfold magnitude
    split
    · exact Nat.one_pos
    · exact Nat.two_pow_pos _

/-! ## Absorption -/

/-- The infinity of a sign, or NaN. -/
def Beyond (negative : Bool) (x : Float) : Prop := x = infinity negative ∨ x = notANumber

/-- The sign of an unpacked double; NaN has none. -/
def signOf : UnpackedFloat → Option Sign
  | .notANumber => none
  | .infinity s | .zero s | .finite s _ _ _ => some s

def sign (negative : Bool) : Sign := if negative then .negative else .positive

theorem sign_mul (a b : Bool) : sign a * sign b = sign (a ^^ b) := by
  cases a <;> cases b <;> rfl

theorem unpack_infinity (negative : Bool) :
    (infinity negative).toModel.unpack = .infinity (sign negative) := by
  cases negative <;> rfl

theorem beyond_pack {u : UnpackedFloat} (far : u = .infinity (sign negative) ∨ u = .notANumber) :
    Beyond negative (.ofModel (.pack u)) := by
  rcases far with rfl | rfl
  · left
    cases negative <;> rfl
  · right
    rfl

theorem Beyond.unpack (beyond : Beyond negative x) :
    x.toModel.unpack = .infinity (sign negative) ∨ x.toModel.unpack = .notANumber := by
  rcases beyond with rfl | rfl
  · exact .inl (unpack_infinity negative)
  · exact .inr rfl

theorem Beyond.add_right (beyond : Beyond negative x) (y : Float) : Beyond negative (x + y) := by
  apply beyond_pack
  rcases beyond.unpack with far | far
  · rw [far]
    cases y.toModel.unpack with
    | infinity =>
      simp only [UnpackedFloat.add]
      split
      · exact .inl rfl
      · exact .inr rfl
    | _ => simp [UnpackedFloat.add]
  · rw [far]
    simp [UnpackedFloat.add]

theorem Beyond.add_left (beyond : Beyond negative x) (y : Float) : Beyond negative (y + x) := by
  apply beyond_pack
  rcases beyond.unpack with far | far
  · rw [far]
    cases y.toModel.unpack with
    | infinity s =>
      simp only [UnpackedFloat.add]
      split
      · rename_i same
        cases s <;> cases negative <;> first | exact .inl rfl | exact absurd same (by decide)
      · exact .inr rfl
    | _ => simp [UnpackedFloat.add]
  · rw [far]
    cases y.toModel.unpack <;> simp [UnpackedFloat.add]

theorem toNat_unpackSign (b : BitVec 64) :
    (@unpackSign Format.binary64 b).toNat = b.toNat / Nat.pow 2 63 := by
  have below : b.toNat < Nat.pow 2 64 := b.isLt
  simp only [unpackSign, BitVec.toNat_cast, BitVec.extractLsb_toNat, Nat.shiftRight_eq_div_pow,
    Nat.pow_eq] at below ⊢
  omega

/-- The sign of a double is its topmost bit. -/
theorem ofBitVec_unpackSign (b : BitVec 64) :
    Sign.ofBitVec (@unpackSign Format.binary64 b)
      = if b.toNat / Nat.pow 2 63 = 1 then .negative else .positive := by
  have value := toNat_unpackSign b
  have below : b.toNat < Nat.pow 2 64 := b.isLt
  rw [Sign.ofBitVec]
  by_cases zero : @unpackSign Format.binary64 b = 0#1
  · have off : b.toNat / Nat.pow 2 63 = 0 := by rw [← value, zero]; rfl
    rw [if_pos zero, if_neg (by omega)]
  · have on : b.toNat / Nat.pow 2 63 ≠ 0 := fun off =>
      zero (BitVec.eq_of_toNat_eq (by rw [value, off]; rfl))
    rw [if_neg zero, if_pos (by omega)]

theorem signOf_unpack (b : BitVec 64) :
    signOf (UnpackedFloat.unpack Format.binary64 b) = none
      ∨ signOf (UnpackedFloat.unpack Format.binary64 b)
          = some (Sign.ofBitVec (@unpackSign Format.binary64 b)) := by
  unfold UnpackedFloat.unpack
  dsimp only
  split
  · split
    · exact .inr rfl
    · exact .inl rfl
  · split
    · split <;> exact .inr rfl
    · exact .inr rfl

theorem unpackSign_pack {u : UnpackedFloat} {s : Sign} (signed : signOf u = some s) :
    @unpackSign Format.binary64 (UnpackedFloat.pack Format.binary64 u) = s.toBitVec := by
  cases u with
  | notANumber => simp [signOf] at signed
  | infinity =>
    cases signed
    exact unpackSign_packComponents ..
  | zero =>
    cases signed
    exact unpackSign_packComponents ..
  | finite =>
    cases signed
    simp only [UnpackedFloat.pack]
    split
    · exact unpackSign_packComponents ..
    · split <;> exact unpackSign_packComponents ..

/-- A double made of bits has the sign of the topmost bit, or is NaN. -/
theorem signOf_ofBits (word : UInt64) :
    signOf (Float.ofBits word).toModel.unpack = none
      ∨ signOf (Float.ofBits word).toModel.unpack
          = some (sign (word.toNat / Nat.pow 2 63 == 1)) := by
  have model : (Float.ofBits word).toModel.unpack = UnpackedFloat.unpack Format.binary64
      (UnpackedFloat.pack Format.binary64
        (UnpackedFloat.unpack Format.binary64 word.toBitVec)) := rfl
  rw [model]
  rcases signOf_unpack word.toBitVec with unsigned | signed
  · left
    generalize UnpackedFloat.unpack Format.binary64 word.toBitVec = u at unsigned
    cases u with
    | notANumber => rfl
    | _ => simp [signOf] at unsigned
  · rcases signOf_unpack (UnpackedFloat.pack Format.binary64
      (UnpackedFloat.unpack Format.binary64 word.toBitVec)) with unsigned | again
    · exact .inl unsigned
    · right
      rw [again, unpackSign_pack signed, ofBitVec_unpackSign]
      have bits : word.toBitVec.toNat = word.toNat := rfl
      rw [bits]
      by_cases on : word.toNat / Nat.pow 2 63 = 1
      · rw [if_pos on, on]; rfl
      · rw [if_neg on, beq_eq_false_iff_ne.mpr on]; rfl

theorem nearestBits_lt {num den bits : Nat} (found : nearestBits num den = some bits) :
    bits < 2047 * 2 ^ 52 := by
  unfold nearestBits at found
  split at found
  · cases found
    decide
  · simp only [Option.ite_none_right_eq_some, Option.some.injEq] at found
    obtain ⟨small, rfl⟩ := found
    exact small

/-- A converted integer has the sign of the integer, or is NaN. -/
theorem signOf_ofInt {n : Int} (converted : ofInt? n = some x) :
    signOf x.toModel.unpack = none ∨ signOf x.toModel.unpack = some (sign (decide (n < 0))) := by
  simp only [ofInt?, nearest, Option.map_eq_some_iff] at converted
  obtain ⟨bits, found, rfl⟩ := converted
  have small := nearestBits_lt found
  by_cases negative : n < 0
  · have word := signOf_ofBits (UInt64.ofNat (bits + Nat.pow 2 63))
    have top : (UInt64.ofNat (bits + Nat.pow 2 63)).toNat / Nat.pow 2 63 = 1 := by
      rw [UInt64.toNat_ofNat']
      simp only [Nat.pow_eq] at small ⊢
      omega
    rw [top] at word
    simpa only [negative, decide_true, if_true, beq_self_eq_true] using word
  · have word := signOf_ofBits (UInt64.ofNat bits)
    have top : (UInt64.ofNat bits).toNat / Nat.pow 2 63 = 0 := by
      rw [UInt64.toNat_ofNat']
      simp only [Nat.pow_eq] at small ⊢
      omega
    rw [top] at word
    simp only [negative, decide_false, Bool.false_eq_true, if_false]
    exact word

theorem mul_infinity {n : Int} (converted : ofInt? n = some x) (negative : Bool) :
    Beyond (decide (n < 0) ^^ negative) (x * infinity negative) := by
  have model : x * infinity negative = .ofModel (.pack (UnpackedFloat.mul Format.binary64
      x.toModel.unpack (infinity negative).toModel.unpack)) := rfl
  rw [model, unpack_infinity]
  apply beyond_pack
  have signed := signOf_ofInt converted
  generalize x.toModel.unpack = u at signed
  cases u with
  | notANumber | zero => exact .inr (by simp [UnpackedFloat.mul])
  | infinity | finite =>
    simp only [signOf, Option.some.injEq, reduceCtorEq, false_or] at signed
    exact .inl (by simp [UnpackedFloat.mul, signed, sign_mul])

end LinearProgram.Double
