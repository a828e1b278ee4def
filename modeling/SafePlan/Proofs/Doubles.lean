/-
# SafePlan.Proofs.Doubles — products and complements of doubles, rounding included

The exact product of two probabilities has more bits than a double, so it is rounded, and
so is the complement of a small number. Rounding does not lead out of `[0, 1]`, because
both ends are doubles; and it gives no negative zero, because no sign is negative.

A double is looked at as what it is unpacked to. Those of `[0, 1]`, but for the negative
zero, are zero and the fractions `m / 2 ^ k` with `m` at most `2 ^ k`, in the one form in
which a fraction is packed (`Fraction`, `fraction_unpack_iff`). Rounding a fraction gives a
fraction (`fraction_roundWithAccuracy`): the shift to the right divides both `m` and `2 ^ k`
by the same power of two, and the mantissa that results is rounded to one that is still at
most the other. It is then packed, and unpacked to the same fraction (`unpack_pack`).
-/
import Mathlib

set_option autoImplicit false

namespace SafePlan

open Float.Model (Format UnpackedFloat totalExponent)
open Float.Model.UnpackedFloat

/-- Zero, or a fraction `m / 2 ^ k` of one, in the form in which it is packed. -/
inductive Fraction : UnpackedFloat → Prop
  | zero : Fraction (.zero .positive)
  | finite {m k : Nat} (positive : 0 < m) (le : m ≤ 2 ^ k) (fits : m < 2 ^ 53)
    (full : 2 ^ 52 ≤ m ∨ k = 1074) (least : k ≤ 1074) :
    Fraction (.finite .positive m (-k) positive)

namespace Fraction

/-- A whole mantissa needs as many binary places. -/
theorem fiftyTwo_le {m k : Nat} (le : m ≤ 2 ^ k) (full : 2 ^ 52 ≤ m ∨ k = 1074) : 52 ≤ k := by
  rcases full with full | rfl
  · exact (Nat.pow_le_pow_iff_right (by omega)).1 (full.trans le)
  · omega

/-! ## Shifting to the right -/

/-- What a mantissa becomes when so many bits are shifted out of it. -/
def shifted (m s : Nat) : ExtendedMantissa :=
  ExtendedMantissa.ofMantissaAndAccuracy m .exact >>> s

theorem shifted_succ (m s : Nat) : shifted m (s + 1) = (shifted m s).shiftRightOne := rfl

theorem mantissa_shifted (m s : Nat) : (shifted m s).mantissa = m / 2 ^ s := by
  induction s with
  | zero => rw [Nat.pow_zero, Nat.div_one]; rfl
  | succ s ih =>
    show (shifted m s).mantissa / 2 = _
    rw [ih, Nat.div_div_eq_div_mul, ← Nat.pow_succ]

theorem shifted_two_pow {k s : Nat} (le : s ≤ k) :
    shifted (2 ^ k) s = .ofMantissaAndAccuracy (2 ^ (k - s)) .exact := by
  induction s with
  | zero => rfl
  | succ s ih =>
    have halved : 2 ^ (k - s) = 2 ^ (k - (s + 1)) * 2 := by
      rw [← Nat.pow_succ]
      congr 1
      omega
    rw [shifted_succ, ih (by omega), halved]
    simp [ExtendedMantissa.shiftRightOne, ExtendedMantissa.ofMantissaAndAccuracy]

theorem roundedMantissa_bounds (em : ExtendedMantissa) :
    em.mantissa ≤ em.roundedMantissa ∧ em.roundedMantissa ≤ em.mantissa + 1 := by
  obtain ⟨m, round, sticky⟩ := em
  cases round <;> cases sticky <;>
    simp only [ExtendedMantissa.roundedMantissa, ExtendedMantissa.accuracy,
      Accuracy.roundToNearestEven] <;> omega

/-- Rounding does not lead beyond one. -/
theorem roundedMantissa_shifted_le {m k s : Nat} (le : m ≤ 2 ^ k) (within : s ≤ k) :
    (shifted m s).roundedMantissa ≤ 2 ^ (k - s) := by
  rcases Nat.lt_or_eq_of_le le with lt | rfl
  · have below : m / 2 ^ s < 2 ^ (k - s) := by
      refine Nat.div_lt_of_lt_mul ?_
      rwa [← Nat.pow_add, Nat.add_sub_cancel' within]
    have := (roundedMantissa_bounds (shifted m s)).2
    rw [mantissa_shifted] at this
    omega
  · rw [shifted_two_pow within]
    exact Nat.le_refl _

/-! ## Rounding -/

theorem log2_le {m k : Nat} (le : m ≤ 2 ^ k) : m.log2 ≤ k := by
  rcases Nat.eq_zero_or_pos m with rfl | positive
  · rw [Nat.log2_zero]; omega
  · exact (Nat.pow_le_pow_iff_right (by omega)).1 ((Nat.log2_self_le positive.ne').trans le)

/-- How far to the right a mantissa is shifted. -/
def excess (m k : Nat) : Nat := max (m.log2 - 52) (k - 1074)

theorem shiftToTargetExponent_eq {m k : Nat} (le : m ≤ 2 ^ k) :
    shiftToTargetExponent Format.binary64 m (-k) .exact =
      (shifted m (excess m k), -((k - excess m k : Nat) : Int)) := by
  have small := log2_le le
  have amount : (Format.binary64.targetExponent (totalExponent m (-k)) - -(k : Int)).toNat =
      excess m k := by
    simp only [Format.targetExponent, totalExponent, Format.mantissaBits, Format.minExponent,
      excess]
    omega
  rw [shiftToTargetExponent, shiftToExponent, amount]
  refine Prod.ext rfl ?_
  show -(k : Int) + (excess m k : Nat) = _
  simp only [excess]
  omega

theorem excess_le {m k : Nat} (le : m ≤ 2 ^ k) : excess m k ≤ k := by
  have := log2_le le
  rw [excess]
  omega

theorem div_excess_lt (m k : Nat) : m / 2 ^ excess m k < 2 ^ 53 := by
  have enough : 2 ^ (m.log2 + 1) ≤ 2 ^ (excess m k + 53) :=
    Nat.pow_le_pow_right (by omega) (by rw [excess]; omega)
  refine Nat.div_lt_of_lt_mul ?_
  rw [← Nat.pow_add]
  exact Nat.lt_log2_self.trans_le enough

/-- The first bit is set, unless the exponent is the least that there is. -/
theorem full_excess {m k : Nat} (sharp : 2 ^ 52 ≤ m ∨ 1074 ≤ k) :
    2 ^ 52 ≤ m / 2 ^ excess m k ∨ k - excess m k = 1074 := by
  rcases Nat.lt_or_ge (m.log2 - 52) (k - 1074) with deep | shallow
  · right
    rw [excess]
    omega
  · rw [excess, max_eq_left shallow]
    rcases Nat.lt_or_ge m.log2 52 with short | long
    · right
      have small : m < 2 ^ 52 := Nat.lt_log2_self.trans_le (Nat.pow_le_pow_right (by omega) short)
      omega
    · left
      have positive : m ≠ 0 := by
        rintro rfl
        rw [Nat.log2_zero] at long
        omega
      rw [Nat.le_div_iff_mul_le (Nat.two_pow_pos _), ← Nat.pow_add, Nat.add_sub_cancel' long]
      exact Nat.log2_self_le positive

/-- **Rounding a fraction gives a fraction,** if no bit is missing that there is room for. -/
theorem fraction_roundWithAccuracy {m k : Nat} (le : m ≤ 2 ^ k) (sharp : 2 ^ 52 ≤ m ∨ 1074 ≤ k) :
    Fraction (roundWithAccuracy Format.binary64 .positive m (-k) .exact) := by
  -- shifted, rounded, and shifted again should rounding have made one bit too many
  have rounded := roundedMantissa_shifted_le le (excess_le le)
  have sharp' : 2 ^ 52 ≤ (shifted m (excess m k)).roundedMantissa ∨ 1074 ≤ k - excess m k := by
    have grown := (roundedMantissa_bounds (shifted m (excess m k))).1
    rw [mantissa_shifted] at grown
    exact (full_excess sharp).imp grown.trans' Eq.ge
  rw [roundWithAccuracy, shiftToTargetExponent_eq le]
  dsimp only
  rw [shiftToTargetExponent_eq rounded]
  generalize (shifted m (excess m k)).roundedMantissa = r, k - excess m k = j at *
  have mantissa := mantissa_shifted r (excess r j)
  split
  · exact .zero
  · refine .finite _ ?_ ?_ ?_ (by rw [excess]; omega) <;> rw [mantissa]
    · refine Nat.div_le_of_le_mul ?_
      rwa [← Nat.pow_add, Nat.add_sub_cancel' (excess_le rounded)]
    · exact div_excess_lt r j
    · exact full_excess sharp'

theorem fraction_round {m k : Nat} (positive : 0 < m) (le : m ≤ 2 ^ k) :
    Fraction (UnpackedFloat.round Format.binary64 .positive m (-k)) := by
  have small := log2_le le
  -- the mantissa is filled up with zeros first
  obtain ⟨d, lowered, sharp⟩ : ∃ d : Nat,
      (-(k : Int) - Format.binary64.targetExponent (totalExponent m (-k))).toNat = d ∧
        (52 ≤ m.log2 + d ∨ 1074 ≤ k + d) := by
    refine ⟨_, rfl, ?_⟩
    simp only [Format.targetExponent, totalExponent, Format.mantissaBits, Format.minExponent]
    omega
  rw [UnpackedFloat.round, decreaseExponent]
  dsimp only
  rw [lowered, Nat.shiftLeft_eq, show -(k : Int) - d = -((k + d : Nat) : Int) by omega]
  refine fraction_roundWithAccuracy ?_ ?_
  · rw [Nat.pow_add]
    exact Nat.mul_le_mul_right _ le
  · refine sharp.imp_left fun long => ?_
    calc 2 ^ 52 ≤ 2 ^ (m.log2 + d) := Nat.pow_le_pow_right (by omega) long
      _ = 2 ^ m.log2 * 2 ^ d := Nat.pow_add ..
      _ ≤ m * 2 ^ d := Nat.mul_le_mul_right _ (Nat.log2_self_le positive.ne')

/-! ## Products and complements -/

variable {f g : UnpackedFloat}

theorem fraction_mul (first : Fraction f) (second : Fraction g) :
    Fraction (UnpackedFloat.mul Format.binary64 f g) := by
  cases first with
  | zero => cases second <;> exact .zero
  | @finite m k positive le fits full least =>
    cases second with
    | zero => exact .zero
    | @finite m' k' positive' le' fits' full' least' =>
      rw [UnpackedFloat.mul, show -(k : Int) + -(k' : Int) = -((k + k' : Nat) : Int) by omega]
      refine fraction_roundWithAccuracy ?_ ?_
      · rw [Nat.pow_add]
        exact Nat.mul_le_mul le le'
      · rcases full with full | rfl
        · exact full'.imp (fun full' => full.trans (Nat.le_mul_of_pos_right m positive')) (by omega)
        · exact .inr (by omega)

/-- One, as it is unpacked. -/
def one : UnpackedFloat := .finite .positive (2 ^ 52) (-52) (by decide)

theorem fraction_one : Fraction one :=
  .finite (k := 52) _ (by decide) (by decide) (by decide) (by decide)

/-- Both sides are brought to the exponent of the second. -/
theorem one_sub_finite {m k : Nat} (positive : 0 < m) (long : 52 ≤ k) :
    UnpackedFloat.sub Format.binary64 one (.finite .positive m (-k) positive) =
      UnpackedFloat.normalize Format.binary64 ((2 ^ k : Nat) - (m : Int)) (-k) .positive := by
  have lower : min (-52) (-(k : Int)) = -k := by omega
  have up : ((-52 : Int) - -(k : Int)).toNat = k - 52 := by omega
  have same : (-(k : Int) - -(k : Int)).toNat = 0 := by omega
  have filled : 2 ^ 52 * 2 ^ (k - 52) = 2 ^ k := by rw [← Nat.pow_add, Nat.add_sub_cancel' long]
  rw [one, UnpackedFloat.sub]
  simp only [decreaseExponent, Nat.shiftLeft_eq, Sign.apply]
  rw [lower, up, same, filled, Nat.pow_zero, Nat.mul_one]

theorem fraction_one_sub (second : Fraction f) :
    Fraction (UnpackedFloat.sub Format.binary64 one f) := by
  cases second with
  | zero => exact fraction_one
  | @finite m k positive le fits full least =>
    rw [one_sub_finite positive (fiftyTwo_le le full), UnpackedFloat.normalize]
    rcases Nat.lt_or_eq_of_le le with lt | rfl
    · have difference : ((2 ^ k : Nat) : Int) - (m : Int) = ((2 ^ k - m : Nat) : Int) := by omega
      have above : compare ((2 ^ k - m : Nat) : Int) 0 = .gt := by
        rw [Int.compare_eq_gt]
        omega
      rw [difference]
      simp only [above, Int.toNat_natCast]
      exact fraction_round (by omega) (Nat.sub_le ..)
    · rw [Int.sub_self]
      exact .zero

/-! ## Packing -/

section Packing

theorem toNat_implicit (m : BitVec 52) : (1#1 ++ m).toNat = 2 ^ 52 + m.toNat := by
  rw [BitVec.toNat_append, ← Nat.shiftLeft_add_eq_or_of_lt m.isLt]
  rfl

variable {s : Sign} {e : BitVec 11} {m : BitVec 52}

theorem unpack_special (special : ¬ e.toNat < 2047) :
    unpack Format.binary64 (packComponents Format.binary64 s e m) =
      if m = 0#52 then .infinity s else .notANumber := by
  obtain rfl : e = -1#11 := by
    apply BitVec.eq_of_toNat_eq
    show e.toNat = 2047
    omega
  simp only [unpack, unpackMantissa_packComponents, unpackExponent_packComponents,
    unpackSign_packComponents, Sign.ofBitVec_toBitVec]
  rfl

theorem unpack_zero (s : Sign) :
    unpack Format.binary64 (packComponents Format.binary64 s 0#11 0#52) = .zero s := by
  cases s <;> rfl

theorem unpack_subnormal (positive : 0 < m.toNat) :
    unpack Format.binary64 (packComponents Format.binary64 s 0#11 m) =
      .finite s m.toNat (-1074) positive := by
  have some : m ≠ 0#52 := by
    rintro rfl
    exact absurd positive (by decide)
  simp only [unpack, unpackMantissa_packComponents, unpackExponent_packComponents,
    unpackSign_packComponents, Sign.ofBitVec_toBitVec]
  rw [if_neg (by decide), if_pos trivial, dif_neg some]
  rfl

theorem unpack_normal (least : 0 < e.toNat) (usual : e.toNat < 2047) :
    unpack Format.binary64 (packComponents Format.binary64 s e m) =
      .finite s (2 ^ 52 + m.toNat) (e.toNat - 1075) (by omega) := by
  have notLeast : e ≠ 0#11 := by
    rintro rfl
    exact absurd least (by decide)
  have notSpecial : e ≠ -1#11 := by
    rintro rfl
    exact absurd usual (by decide)
  simp only [unpack, unpackMantissa_packComponents, unpackExponent_packComponents,
    unpackSign_packComponents, Sign.ofBitVec_toBitVec]
  rw [if_neg notSpecial, if_neg notLeast]
  simp only [toNat_implicit]
  rfl

theorem pack_subnormal {m : Nat} (positive : 0 < m) (short : m < 2 ^ 52) :
    UnpackedFloat.pack Format.binary64 (.finite s m (-1074) positive) =
      packComponents Format.binary64 s 0#11 (BitVec.ofNat 52 m) := by
  have noBit : ¬ m.log2 + 1 = Format.binary64.mantissaBits := by
    have := (Nat.log2_lt positive.ne').2 short
    simp only [Format.mantissaBits]
    omega
  rw [UnpackedFloat.pack]
  dsimp only
  rw [if_neg (by decide), if_neg noBit]

theorem pack_normal {m b : Nat} (least : 0 < b) (usual : b < 2047) (whole : 2 ^ 52 ≤ m)
    (fits : m < 2 ^ 53) :
    UnpackedFloat.pack Format.binary64 (.finite s m (b - 1075) (by omega)) =
      packComponents Format.binary64 s (BitVec.ofNat 11 b) (BitVec.ofNat 52 m) := by
  have bit : m.log2 + 1 = Format.binary64.mantissaBits := by
    have := (Nat.log2_eq_iff (k := 52) (by omega)).2 ⟨whole, fits⟩
    simp only [Format.mantissaBits]
    omega
  have biased : ((b : Int) - 1075 + Format.binary64.exponentBias +
      Format.binary64.mantissaBitsWithoutImplicit).toNat = b := by
    simp only [Format.exponentBias]
    omega
  rw [UnpackedFloat.pack]
  simp only [biased]
  rw [if_neg (by show ¬ 2 ^ 11 ≤ _; omega), if_pos bit]

theorem unpack_pack (fraction : Fraction f) :
    unpack Format.binary64 (UnpackedFloat.pack Format.binary64 f) = f := by
  cases fraction with
  | zero => rfl
  | @finite m k positive le fits full least =>
    rcases Nat.lt_or_ge m (2 ^ 52) with short | whole
    · obtain rfl : k = 1074 := by omega
      have same : (BitVec.ofNat 52 m).toNat = m := Nat.mod_eq_of_lt short
      show unpack _ (UnpackedFloat.pack _ (.finite _ m (-1074) _)) = .finite _ m (-1074) _
      rw [pack_subnormal positive short, unpack_subnormal (by omega)]
      simp only [same]
    · have long := fiftyTwo_le le full
      have exponent : -(k : Int) = (1075 - k : Nat) - 1075 := by omega
      have low : (BitVec.ofNat 11 (1075 - k)).toNat = 1075 - k := Nat.mod_eq_of_lt (by omega)
      have high : 2 ^ 52 + (BitVec.ofNat 52 m).toNat = m := by
        rw [BitVec.toNat_ofNat]
        omega
      simp only [exponent]
      rw [pack_normal (by omega) (by omega) whole fits, unpack_normal (by omega) (by omega)]
      simp only [low, high]

/-- Bits are of one of four kinds: special, zero, subnormal, normal. -/
theorem kinds (s : Sign) (e : BitVec 11) (m : BitVec 52) :
    (unpack Format.binary64 (packComponents Format.binary64 s e m)).isFinite = false ∨
      (e = 0#11 ∧ m = 0#52) ∨ (e = 0#11 ∧ 0 < m.toNat) ∨ (0 < e.toNat ∧ e.toNat < 2047) := by
  by_cases usual : e.toNat < 2047
  · rcases Nat.eq_zero_or_pos e.toNat with zero | least
    · have lowest : e = 0#11 := BitVec.eq_of_toNat_eq zero
      rcases Nat.eq_zero_or_pos m.toNat with zero | positive
      · exact .inr (.inl ⟨lowest, BitVec.eq_of_toNat_eq zero⟩)
      · exact .inr (.inr (.inl ⟨lowest, positive⟩))
    · exact .inr (.inr (.inr ⟨least, usual⟩))
  · rw [unpack_special usual]
    left
    split <;> rfl

end Packing

/-! ## Doubles -/

theorem le_iff (p q : Float) :
    p ≤ q ↔ (p.toModel.unpack.compare q.toModel.unpack).any (·.isLE) = true :=
  decide_eq_true_iff

theorem pack_unpack_double (p : Float) : Float.ofModel (Float.Model.pack p.toModel.unpack) = p :=
  Float.ofBits_toBits p

theorem unpack_zero_double : (0.0 : Float).toModel.unpack = .zero .positive := rfl

theorem unpack_one_double : (1.0 : Float).toModel.unpack = one := rfl

theorem unpack_negZero_double : (-0.0 : Float).toModel.unpack = .zero .negative := rfl

theorem finite_shape {p : Float} {s : Sign} {m : Nat} {e : Int} {positive : 0 < m}
    (unpacked : p.toModel.unpack = .finite s m e positive) :
    m < 2 ^ 53 ∧ -1074 ≤ e ∧ (2 ^ 52 ≤ m ∨ e = -1074) := by
  obtain ⟨s', e', m', parts⟩ : ∃ s e m,
      packComponents Format.binary64 s e m = p.toModel.toBits.toBitVec :=
    ⟨_, _, _, @packComponents_unpackSign_unpackExponent_unpackMantissa Format.binary64 _⟩
  have inside : m'.toNat < 2 ^ 52 := m'.isLt
  rw [Float.Model.unpack, ← parts] at unpacked
  rcases kinds s' e' m' with special | ⟨rfl, rfl⟩ | ⟨rfl, positive'⟩ | ⟨least, usual⟩
  · rw [unpacked] at special
    cases special
  · rw [unpack_zero] at unpacked
    cases unpacked
  · rw [unpack_subnormal positive'] at unpacked
    cases unpacked
    omega
  · rw [unpack_normal least usual] at unpacked
    cases unpacked
    omega

theorem compare_one {m : Nat} {e : Int} (positive : 0 < m) :
    ((UnpackedFloat.finite .positive m e positive).compare one).any (·.isLE) = true ↔
      e < -52 ∨ e = -52 ∧ m ≤ 2 ^ 52 := by
  show ((compare e (-52)).then (compare m (2 ^ 52))).isLE = true ↔ _
  rcases Int.lt_trichotomy e (-52) with low | rfl | high
  · rw [Int.compare_eq_lt.2 low]
    exact iff_of_true rfl (.inl low)
  · rw [show compare (-52 : Int) (-52) = .eq from rfl, Ordering.then, Nat.isLE_compare]
    omega
  · rw [Int.compare_eq_gt.2 high]
    simp only [Ordering.then, Ordering.isLE, Bool.false_eq_true, false_iff]
    omega

theorem within_of_fraction (fraction : Fraction f) :
    ((UnpackedFloat.zero .positive).compare f).any (·.isLE) = true ∧
      (f.compare one).any (·.isLE) = true := by
  cases fraction with
  | zero => decide
  | @finite m k positive le fits full least =>
    refine ⟨rfl, (compare_one positive).2 ?_⟩
    rcases Nat.lt_or_eq_of_le (fiftyTwo_le le full) with low | rfl
    · exact .inl (by omega)
    · exact .inr ⟨rfl, le⟩

theorem eq_negZero {p : Float} (unpacked : p.toModel.unpack = .zero .negative) : p = -0.0 := by
  rw [← pack_unpack_double p, unpacked]
  rfl

/-- **The doubles from zero to one,** but for the negative zero, are the fractions of one. -/
theorem fraction_unpack_iff (p : Float) :
    Fraction p.toModel.unpack ↔ (0.0 ≤ p ∧ p ≤ 1.0) ∧ p ≠ -0.0 := by
  rw [le_iff, le_iff, unpack_zero_double, unpack_one_double]
  constructor
  · intro fraction
    refine ⟨within_of_fraction fraction, ?_⟩
    rintro rfl
    rw [unpack_negZero_double] at fraction
    cases fraction
  · rintro ⟨⟨nonneg, le⟩, notNegative⟩
    cases unpacked : p.toModel.unpack with
    | notANumber =>
      rw [unpacked] at nonneg
      cases nonneg
    | infinity s =>
      rw [unpacked] at nonneg le
      cases s
      · cases nonneg
      · cases le
    | zero s =>
      cases s with
      | positive => exact .zero
      | negative => exact absurd (eq_negZero unpacked) notNegative
    | finite s m e positive =>
      obtain ⟨fits, least, full⟩ := finite_shape unpacked
      rw [unpacked] at nonneg le
      cases s with
      | negative => cases nonneg
      | positive =>
        rw [compare_one] at le
        obtain ⟨k, rfl⟩ : ∃ k : Nat, e = -k := ⟨(-e).toNat, by omega⟩
        refine .finite positive ?_ fits (by omega) (by omega)
        rcases le with low | ⟨here, le⟩
        · exact fits.le.trans (Nat.pow_le_pow_right (by omega) (by omega))
        · obtain rfl : k = 52 := by omega
          exact le

/-! ### Operations -/

variable {p q : Float}

theorem fraction_unpack_mul (first : Fraction p.toModel.unpack)
    (second : Fraction q.toModel.unpack) : Fraction (p * q).toModel.unpack := by
  have product := fraction_mul first second
  show Fraction (unpack _ (UnpackedFloat.pack _ _))
  rwa [unpack_pack product]

theorem fraction_unpack_one_sub (second : Fraction q.toModel.unpack) :
    Fraction (1.0 - q).toModel.unpack := by
  have complement := fraction_one_sub second
  show Fraction (unpack _ (UnpackedFloat.pack _ (UnpackedFloat.sub _ one _)))
  rwa [unpack_pack complement]

/-- Adding zero leaves a fraction as it is. -/
theorem add_zero_of_fraction (fraction : Fraction p.toModel.unpack) : p + 0.0 = p := by
  have same : UnpackedFloat.add Format.binary64 p.toModel.unpack (.zero .positive) =
      p.toModel.unpack := by
    generalize p.toModel.unpack = f at fraction
    cases fraction <;> rfl
  show Float.ofModel (.pack (UnpackedFloat.add _ p.toModel.unpack (.zero .positive))) = p
  rw [same, pack_unpack_double]

theorem negZero_add_zero : (-0.0 : Float) + 0.0 = 0.0 := by
  decide

end Fraction

end SafePlan
