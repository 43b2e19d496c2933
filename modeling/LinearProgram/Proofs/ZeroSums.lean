import LinearProgram.Proofs.Doubles
import LinearProgram.Proofs.Mentions

/-!
# Totals that start from zero

A running total that starts from zero never becomes minus zero (`Double.add_ne_minusZero`), so zero
added to it gives back that very number, and the zero polynomial that very polynomial
(`Polynomial.IsTotal.zero_add`).
-/

namespace LinearProgram.Double

open Float.Model Float.Model.UnpackedFloat

variable {m : Nat} {x : Float} {e : Int}

/-! ## Rounding -/

/-- An unpacked double that fits the format: if it is finite and not zero, its mantissa has at most
53 bits and its exponent is at least the smallest one. -/
def Fits : UnpackedFloat → Prop
  | .finite _ m e _ => m < 2 ^ 53 ∧ -1074 ≤ e
  | _ => True

/-- By how many bits a mantissa is cut on the way to its target exponent. -/
def cut (m : Nat) (e : Int) : Nat :=
  (Format.binary64.targetExponent (totalExponent m e) - e).toNat

theorem targetExponent_binary64 (t : Int) :
    Format.binary64.targetExponent t = max (t - 53) (-1074) := rfl

/-- All bits but 53 are cut, and never the leading one. -/
theorem cut_bounds (low : -1074 ≤ e) : m.log2 ≤ cut m e + 52 ∧ cut m e ≤ m.log2 := by
  rw [cut, targetExponent_binary64, totalExponent]
  omega

theorem cut_mantissa (pos : 0 < m) {e : Int} (low : -1074 ≤ e) :
    0 < m / 2 ^ cut m e ∧ m / 2 ^ cut m e < 2 ^ 53 := by
  obtain ⟨enough, few⟩ := @cut_bounds m e low
  constructor
  · apply Nat.div_pos _ (Nat.two_pow_pos _)
    exact (Nat.pow_le_pow_right (by decide) few).trans (Nat.log2_self_le (Nat.ne_of_gt pos))
  · apply Nat.div_lt_of_lt_mul
    rw [← Nat.pow_add]
    exact Nat.lt_log2_self.trans_le (Nat.pow_le_pow_right (by decide) (by omega))

theorem mantissa_shiftRight (extended : ExtendedMantissa) (k : Nat) :
    (extended >>> k).mantissa = extended.mantissa / 2 ^ k := by
  induction k with
  | zero => exact (Nat.div_one _).symm
  | succ k ih =>
    show (extended >>> k).mantissa / 2 = _
    rw [ih, Nat.div_div_eq_div_mul, Nat.pow_succ]

theorem mantissa_ofMantissaAndAccuracy (m : Nat) (accuracy : Accuracy) :
    (ExtendedMantissa.ofMantissaAndAccuracy m accuracy).mantissa = m := by
  rcases accuracy with _ | (_ | _ | _) <;> rfl

theorem le_roundToNearestEven (m : Nat) (accuracy : Accuracy) :
    m ≤ accuracy.roundToNearestEven m := by
  rcases accuracy with _ | (_ | _ | _) <;> simp [Accuracy.roundToNearestEven]

theorem shiftToTargetExponent_eq (m : Nat) (e : Int) (accuracy : Accuracy) :
    shiftToTargetExponent Format.binary64 m e accuracy
      = (ExtendedMantissa.ofMantissaAndAccuracy m accuracy >>> cut m e, e + cut m e) := rfl

/-- What is not zero is rounded to a double that is not zero. -/
theorem roundWithAccuracy_finite (s : Sign) {m : Nat} (pos : 0 < m) {e : Int} (low : -1074 ≤ e)
    (accuracy : Accuracy) :
    ∃ m' e' pos', roundWithAccuracy Format.binary64 s m e accuracy = .finite s m' e' pos'
      ∧ m' < 2 ^ 53 ∧ -1074 ≤ e' := by
  unfold roundWithAccuracy
  simp only [shiftToTargetExponent_eq, mantissa_shiftRight, mantissa_ofMantissaAndAccuracy]
  have pos' :
      0 < (ExtendedMantissa.ofMantissaAndAccuracy m accuracy >>> cut m e).roundedMantissa := by
    rw [ExtendedMantissa.roundedMantissa, mantissa_shiftRight, mantissa_ofMantissaAndAccuracy]
    exact (cut_mantissa pos low).1.trans_le (le_roundToNearestEven _ _)
  -- rounding up may carry into one more bit, which the second cut takes back
  obtain ⟨kept, small⟩ := cut_mantissa pos' (show -1074 ≤ e + cut m e by omega)
  rw [dif_neg (Nat.ne_of_gt kept)]
  exact ⟨_, _, kept, rfl, small, by omega⟩

theorem round_finite (s : Sign) {m : Nat} (pos : 0 < m) {e : Int} (low : -1074 ≤ e) :
    ∃ m' e' pos', UnpackedFloat.round Format.binary64 s m e = .finite s m' e' pos'
      ∧ m' < 2 ^ 53 ∧ -1074 ≤ e' := by
  unfold UnpackedFloat.round decreaseExponent
  apply roundWithAccuracy_finite
  · rw [Nat.shiftLeft_eq]
    exact Nat.mul_pos pos (Nat.two_pow_pos _)
  · rw [targetExponent_binary64]
    omega

/-! ## Minus zero -/

theorem exponentBias_binary64 : Format.binary64.exponentBias = 1023 := by decide

theorem fits_unpack (b : BitVec 64) : Fits (UnpackedFloat.unpack Format.binary64 b) := by
  unfold UnpackedFloat.unpack
  dsimp only
  rw [exponentBias_binary64]
  split
  · split <;> exact trivial
  · split
    · split
      · exact trivial
      · have small := (@unpackMantissa Format.binary64 b).isLt
        refine ⟨small.trans (by decide), ?_⟩
        omega
    case isFalse normal =>
      have field : 0 < (@unpackExponent Format.binary64 b).toNat := by
        rw [BitVec.toNat_pos, BitVec.pos_iff_ne_zero]
        exact normal
      exact ⟨(1#1 ++ @unpackMantissa Format.binary64 b).isLt, by omega⟩

/-- A finite double that is not zero has a bit set beside its sign. -/
theorem pack_finite_ne_zero {s t : Sign} {pos : 0 < m} (fits : Fits (.finite s m e pos)) :
    UnpackedFloat.pack Format.binary64 (.finite s m e pos) ≠ packedZero Format.binary64 t := by
  intro isZero
  have exponents : unpackExponent (UnpackedFloat.pack Format.binary64 (.finite s m e pos)) = 0 := by
    rw [isZero]
    exact unpackExponent_packComponents
  have mantissas : unpackMantissa (UnpackedFloat.pack Format.binary64 (.finite s m e pos)) = 0 := by
    rw [isZero]
    exact unpackMantissa_packComponents
  obtain ⟨small, low⟩ := fits
  simp only [UnpackedFloat.pack, exponentBias_binary64] at exponents mantissas
  split at exponents
  case isTrue =>
    rw [packedInfinity, unpackExponent_packComponents] at exponents
    exact absurd exponents (by decide)
  case isFalse below =>
    rw [if_neg below] at mantissas
    split at exponents
    case isTrue =>
      -- the exponent field of a normal double is not zero
      rw [unpackExponent_packComponents] at exponents
      have field := congrArg BitVec.toNat exponents
      rw [BitVec.toNat_ofNat] at field
      change _ = (0 : Nat) at field
      omega
    case isFalse subnormal =>
      rw [if_neg subnormal, unpackMantissa_packComponents] at mantissas
      have field := congrArg BitVec.toNat mantissas
      rw [BitVec.toNat_ofNat] at field
      change m % 2 ^ 52 = 0 at field
      change ¬ m.log2 + 1 = 53 at subnormal
      have bits := (Nat.log2_lt (Nat.ne_of_gt pos)).mpr small
      have tiny : m < 2 ^ 52 := (Nat.log2_lt (Nat.ne_of_gt pos)).mp (by omega)
      rw [Nat.mod_eq_of_lt tiny] at field
      omega

/-- The one double that zero cannot be added to without changing it. -/
def IsMinusZero (x : Float) : Prop := x.toModel.unpack = .zero .negative

theorem not_isMinusZero_pack {u : UnpackedFloat} (fits : Fits u) (other : u ≠ .zero .negative) :
    ¬ IsMinusZero (.ofModel (.pack u)) := by
  intro isMinusZero
  have bits : pack Format.binary64 u = packedZero Format.binary64 .negative :=
    (unpack_eq_zero_iff_of_valid valid_pack).mp isMinusZero
  cases u with
  | notANumber => exact absurd bits (by decide)
  | infinity s => cases s <;> exact absurd bits (by decide)
  | zero s =>
    cases s with
    | negative => exact other rfl
    | positive => exact absurd bits (by decide)
  | finite => exact pack_finite_ne_zero fits bits

theorem add_finite {s t : Sign} {n : Nat} {f : Int} {pos : 0 < m} {pos' : 0 < n} (low : -1074 ≤ e)
    (low' : -1074 ≤ f) :
    Fits (UnpackedFloat.add Format.binary64 (.finite s m e pos) (.finite t n f pos'))
      ∧ UnpackedFloat.add Format.binary64 (.finite s m e pos) (.finite t n f pos')
        ≠ .zero .negative := by
  simp only [UnpackedFloat.add, UnpackedFloat.normalize]
  generalize s.apply _ + t.apply _ = exact
  split
  case h_1 below =>
    have negative := Int.compare_eq_lt.mp below
    obtain ⟨m', e', pos', rounded, fits⟩ :=
      round_finite .negative (show 0 < (-exact).toNat by omega) (show -1074 ≤ min e f by omega)
    rw [rounded]
    exact ⟨fits, by rintro ⟨⟩⟩
  case h_2 => exact ⟨trivial, by rintro ⟨⟩⟩
  case h_3 above =>
    have positive := Int.compare_eq_gt.mp above
    obtain ⟨m', e', pos', rounded, fits⟩ :=
      round_finite .positive (show 0 < exact.toNat by omega) (show -1074 ≤ min e f by omega)
    rw [rounded]
    exact ⟨fits, by rintro ⟨⟩⟩

/-- A sum of unpacked doubles that fit fits, and is minus zero only if the first operand is. -/
theorem add_fits {u w : UnpackedFloat} (fitsU : Fits u) (fitsW : Fits w)
    (other : u ≠ .zero .negative) :
    Fits (UnpackedFloat.add Format.binary64 u w)
      ∧ UnpackedFloat.add Format.binary64 u w ≠ .zero .negative := by
  cases u with
  | notANumber => exact ⟨by simp [UnpackedFloat.add, Fits], by simp [UnpackedFloat.add]⟩
  | infinity =>
    cases w with
    | infinity =>
      simp only [UnpackedFloat.add]
      split <;> exact ⟨trivial, by rintro ⟨⟩⟩
    | _ => exact ⟨by simp [UnpackedFloat.add, Fits], by simp [UnpackedFloat.add]⟩
  | zero s =>
    cases s with
    | negative => exact absurd rfl other
    | positive =>
      cases w with
      | zero t => cases t <;> exact ⟨trivial, by rintro ⟨⟩⟩
      | finite => exact ⟨fitsW, by rintro ⟨⟩⟩
      | _ => exact ⟨trivial, by rintro ⟨⟩⟩
  | finite =>
    cases w with
    | finite => exact add_finite fitsU.2 fitsW.2
    | zero => exact ⟨fitsU, by rintro ⟨⟩⟩
    | _ => exact ⟨trivial, by rintro ⟨⟩⟩

theorem add_ne_minusZero (other : ¬ IsMinusZero x) (y : Float) : ¬ IsMinusZero (x + y) := by
  obtain ⟨fits, sum⟩ := add_fits (fits_unpack _) (fits_unpack y.toModel.toBits.toBitVec) other
  exact not_isMinusZero_pack fits sum

/-- Zero can be added to every other double without changing it. -/
theorem zero_add (other : ¬ IsMinusZero x) : 0.0 + x = x := by
  have packed : .ofModel (.pack x.toModel.unpack) = x := Float.ofBits_toBits x
  have sum : add Format.binary64 (.zero .positive) x.toModel.unpack
      = x.toModel.unpack := by
    unfold IsMinusZero at other
    generalize x.toModel.unpack = u at other
    cases u with
    | zero s =>
      cases s with
      | negative => exact absurd rfl other
      | positive => rfl
    | _ => rfl
  have model : 0.0 + x
      = .ofModel (.pack (add Format.binary64 (.zero .positive) x.toModel.unpack)) :=
    rfl
  rw [model, sum, packed]

/-! ## Integers -/

theorem le_roundDiv (num den : Nat) : num / den ≤ roundDiv num den := by
  unfold roundDiv
  dsimp only
  split
  · exact Nat.le_refl _
  · split
    · exact Nat.le_succ _
    · split
      · exact Nat.le_refl _
      · exact Nat.le_succ _

/-- The exponent of an integer is small enough for its leading bit, and never below the smallest. -/
theorem exponentFor_integer (num : Nat) :
    -1074 ≤ exponentFor num 1 ∧ exponentFor num 1 ≤ num.log2 := by
  have one : Nat.log2 1 = 0 := by decide
  unfold exponentFor
  simp only [one]
  constructor
  · exact Int.le_max_right _ _
  · split <;> simp only [Int.ofNat_eq_natCast] <;> omega

theorem nearestBits_pos {num bits : Nat} (pos : 0 < num) (found : nearestBits num 1 = some bits) :
    0 < bits := by
  obtain ⟨low, high⟩ := exponentFor_integer num
  have mantissa : 0 < roundDiv (unscale num 1 (exponentFor num 1)).1
      (unscale num 1 (exponentFor num 1)).2 := by
    refine Nat.lt_of_lt_of_le ?_ (le_roundDiv _ _)
    unfold unscale
    split
    · rw [Nat.one_mul]
      apply Nat.div_pos _ (Nat.two_pow_pos _)
      calc Nat.pow 2 (exponentFor num 1).toNat ≤ 2 ^ num.log2 :=
            Nat.pow_le_pow_right (by decide) (by omega)
        _ ≤ num := Nat.log2_self_le (Nat.ne_of_gt pos)
    · rw [Nat.div_one]
      exact Nat.mul_pos pos (Nat.two_pow_pos _)
  unfold nearestBits at found
  rw [if_neg (Nat.ne_of_gt pos)] at found
  simp only [Option.ite_none_right_eq_some, Option.some.injEq] at found
  obtain ⟨-, rfl⟩ := found
  split
  · exact mantissa
  · -- a normal double has a positive exponent field
    have field : 0 < (exponentFor num 1 + 1075).toNat := by omega
    exact Nat.add_pos_left (Nat.mul_pos field (Nat.two_pow_pos 52)) _

/-- No integer is converted to minus zero: zero has no sign, and the others are not small. -/
theorem ofInt_ne_minusZero {n : Int} (converted : ofInt? n = some x) : ¬ IsMinusZero x := by
  intro isMinusZero
  have signed := signOf_ofInt converted
  rw [isMinusZero] at signed
  by_cases negative : n < 0
  · simp only [ofInt?, nearest, Option.map_eq_some_iff, negative, decide_true, if_true] at converted
    obtain ⟨bits, found, rfl⟩ := converted
    have pos := nearestBits_pos (by omega) found
    have small := nearestBits_lt found
    have packed : pack Format.binary64 (unpack Format.binary64
        (UInt64.ofNat (bits + Nat.pow 2 63)).toBitVec) = packedZero Format.binary64 .negative :=
      (unpack_eq_zero_iff_of_valid valid_pack).mp isMinusZero
    rw [pack_unpack] at packed
    split at packed
    · exact absurd packed (by decide)
    · have word := congrArg BitVec.toNat packed
      have zero : (packedZero Format.binary64 .negative).toNat = Nat.pow 2 63 := by decide
      rw [zero] at word
      change (UInt64.ofNat (bits + Nat.pow 2 63)).toNat = _ at word
      rw [UInt64.toNat_ofNat'] at word
      simp only [Nat.pow_eq] at small word
      omega
  · simp [signOf, sign, negative] at signed

end LinearProgram.Double

namespace LinearProgram

open List

variable {new terms : List (VarKey × Number)} {x a : Number} {key : VarKey}

namespace Number

/-- What a running total from zero can be: an integer, or a double other than minus zero. -/
def IsTotal : Number → Prop
  | bool _ => False
  | int _ => True
  | float x => ¬ Double.IsMinusZero x

theorem IsTotal.toFloat {x : Float} (total : a.IsTotal) (converted : a.toFloat? = some x) :
    ¬ Double.IsMinusZero x := by
  cases a with
  | bool => exact absurd total id
  | int => exact Double.ofInt_ne_minusZero converted
  | float =>
    cases converted
    exact total

theorem IsTotal.add {b c : Number} (total : a.IsTotal) (sum : a.add b = some c) : c.IsTotal := by
  unfold Number.add combine at sum
  split at sum
  · cases sum
    exact trivial
  · obtain ⟨x, left, sum⟩ := Option.bind_eq_some_iff.mp sum
    obtain ⟨y, right, sum⟩ := Option.bind_eq_some_iff.mp sum
    cases sum
    exact Double.add_ne_minusZero (total.toFloat left) y

theorem IsTotal.zero_add (total : a.IsTotal) : Number.add (.int 0) a = some a := by
  cases a with
  | bool => exact absurd total id
  | int n =>
    show some (int (0 + n)) = some (int n)
    rw [Int.zero_add]
  | float x =>
    have zero : Double.ofInt? 0 = some 0.0 := by decide +kernel
    show (do let y ← Double.ofInt? 0; pure (float (y + x)) : Option Number) = some (float x)
    rw [zero]
    show some (float (0.0 + x)) = some (float x)
    rw [Double.zero_add total]

end Number

namespace Polynomial

/-! ## Polynomials -/

/-- The terms of a running total: every instance at most once. -/
structure AreTotals (terms : List (VarKey × Number)) : Prop where
  distinct : terms.Pairwise fun a b => a.1.equal b.1 = false
  coefficients : ∀ term ∈ terms, term.2.IsTotal

/-- What a running total of polynomials from zero can be. -/
structure IsTotal (p : Polynomial) : Prop extends AreTotals p.terms where
  nonzero : ∀ term ∈ p.terms, term.2.isZero = false
  constant : p.constant.IsTotal

theorem isTotal_zero : IsTotal (const (.int 0)) := ⟨⟨.nil, nofun⟩, nofun, trivial⟩

/-- A term for an instance that has none goes last. -/
theorem addTerm_new (total : x.IsTotal) {done : List (VarKey × Number)}
    (new : ∀ term ∈ done, term.1.equal key = false) :
    addTerm key x done = .ok (done ++ [(key, x)]) := by
  induction done with
  | nil =>
    rw [addTerm, total.zero_add]
    rfl
  | cons _ _ ih =>
    rw [forall_mem_cons] at new
    rw [addTerm, if_neg (by simp [new.1]), ih new.2]
    rfl

theorem foldlM_addTerm {done : List (VarKey × Number)} (totals : ∀ term ∈ terms, term.2.IsTotal)
    (distinct : (done ++ terms).Pairwise fun a b => a.1.equal b.1 = false) :
    terms.foldlM (fun terms term => addTerm term.1 term.2 terms) done = .ok (done ++ terms) := by
  induction terms generalizing done with
  | nil => exact congrArg Except.ok (append_nil done).symm
  | cons term rest ih =>
    rw [forall_mem_cons] at totals
    have new : ∀ earlier ∈ done, earlier.1.equal term.1 = false := fun earlier mem =>
      (pairwise_append.mp distinct).2.2 earlier mem term mem_cons_self
    rw [foldlM_cons, addTerm_new totals.1 new]
    show rest.foldlM _ (done ++ [term]) = _
    rw [ih totals.2 (by simpa using distinct)]
    simp

/-- **The zero polynomial added to a total gives back that very total.** -/
theorem IsTotal.zero_add {p : Polynomial} (total : p.IsTotal) :
    (const (.int 0)).add p = .ok p := by
  have terms : p.terms.foldlM (fun terms term => addTerm term.1 term.2 terms) [] = .ok p.terms :=
    foldlM_addTerm total.coefficients total.distinct
  have kept : p.terms.filter (fun term => !term.2.isZero) = p.terms :=
    filter_eq_self.mpr fun term mem => by rw [total.nonzero term mem]; rfl
  unfold add
  rw [const, terms, total.constant.zero_add]
  show Except.ok (ofTerms p.terms p.constant) = _
  rw [ofTerms, kept]

theorem AreTotals.addTerm (totals : AreTotals terms)
    (added : Polynomial.addTerm key x terms = .ok new) : AreTotals new := by
  refine ⟨distinct_addTerm totals.distinct added, ?_⟩
  have before := totals.coefficients
  rcases addTerm_cases added with ⟨first, k, y, z, after, rfl, -, sum, rfl⟩ | ⟨-, z, sum, rfl⟩
  · rw [forall_mem_append, forall_mem_cons] at before ⊢
    exact ⟨before.1, before.2.1.add sum, before.2.2⟩
  · have isTotal : z.IsTotal := Number.IsTotal.add (a := .int 0) trivial sum
    exact forall_mem_append.mpr ⟨before, by simpa using isTotal⟩

theorem IsTotal.add {p q r : Polynomial} (total : p.IsTotal) (sum : p.add q = .ok r) :
    r.IsTotal := by
  obtain ⟨terms, folded, sum⟩ := bind_eq_ok.mp sum
  obtain ⟨constant, isSum, sum⟩ := bind_eq_ok.mp sum
  cases sum
  have totals : AreTotals terms := foldlM_keeps AreTotals folded total.toAreTotals
    fun _ totals _ _ _ => totals.addTerm
  refine ⟨⟨totals.distinct.filter _, fun term mem => ?_⟩, fun term mem => ?_,
    total.constant.add (orOverflow_eq_ok.mp isSum)⟩
  · exact totals.coefficients term (mem_filter.mp mem).1
  · simpa using (mem_filter.mp mem).2

end Polynomial

end LinearProgram
