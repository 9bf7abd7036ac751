import Formula.Proofs.Number.Layout

/-!
Identities that the arithmetic of numbers keeps to the last bit. Rounding does not look at
the sign, so a sign may be taken out of a product or a quotient, and a difference is a sum
with the sign turned. A factor or a divisor of one only puts zeros below the mantissa, and
these are cut off again. Whatever is no number is one and the same literal, so each identity
holds of it too.
-/

namespace Formula.Number

open Float.Model Float.Model.UnpackedFloat

def packed (value : UnpackedFloat) : Float := .ofModel (Float.Model.pack value)

theorem packed_unpacked (value : Float) : packed (unpacked value) = value := by
  apply Float.toBits_inj.mp
  exact UInt64.toBitVec_inj.mp (pack_unpack_of_valid value.toModel.valid)

section Operations

variable (a b : Float)

theorem neg_eq_packed : -a = packed (unpacked a).neg := rfl

theorem add_eq_packed :
    a + b = packed (UnpackedFloat.add Format.binary64 (unpacked a) (unpacked b)) := rfl

theorem sub_eq_packed :
    a - b = packed (UnpackedFloat.sub Format.binary64 (unpacked a) (unpacked b)) := rfl

theorem mul_eq_packed :
    a * b = packed (UnpackedFloat.mul Format.binary64 (unpacked a) (unpacked b)) := rfl

theorem div_eq_packed :
    a / b = packed (UnpackedFloat.div Format.binary64 (unpacked a) (unpacked b)) := rfl

end Operations

section Signs

theorem turned_packComponents (sign : Sign) (exponent : BitVec 11) (mantissa : BitVec 52) :
    turned (packComponents Format.binary64 sign exponent mantissa) =
      packComponents Format.binary64 (-sign) exponent mantissa := by
  rw [turned, unpackSign_packComponents, unpackExponent_packComponents,
    unpackMantissa_packComponents, Sign.ofBitVec_toBitVec]

theorem pack_neg {value : UnpackedFloat} (h : value ≠ .notANumber) :
    UnpackedFloat.pack Format.binary64 value.neg =
      turned (UnpackedFloat.pack Format.binary64 value) := by
  cases value with
  | notANumber => exact absurd rfl h
  | infinity sign => exact (turned_packComponents ..).symm
  | zero sign => exact (turned_packComponents ..).symm
  | finite sign mantissa exponent positive =>
      simp only [UnpackedFloat.neg, UnpackedFloat.pack]
      split
      · exact (turned_packComponents ..).symm
      · split
        · exact (turned_packComponents ..).symm
        · exact (turned_packComponents ..).symm

theorem packed_neg (value : UnpackedFloat) : packed value.neg = -packed value := by
  by_cases h : value = .notANumber
  · rw [h]
    rfl
  · rw [neg_eq_ofBits]
    apply Float.toBits_inj.mp
    apply UInt64.toBitVec_inj.mp
    change UnpackedFloat.pack Format.binary64 value.neg =
      UnpackedFloat.pack Format.binary64 (UnpackedFloat.unpack Format.binary64
        (turned (UnpackedFloat.pack Format.binary64 value)))
    rw [← pack_neg h, pack_unpack_of_valid valid_pack]

theorem sign_mul_comm (s t : Sign) : s * t = t * s := by cases s <;> cases t <;> rfl

theorem sign_neg_mul (s t : Sign) : -s * t = -(s * t) := by cases s <;> cases t <;> rfl

theorem sign_neg_div (s t : Sign) : -s / t = -(s / t) := by cases s <;> cases t <;> rfl

theorem sign_div_neg (s t : Sign) : s / -t = -(s / t) := by cases s <;> cases t <;> rfl

theorem roundWithAccuracy_neg (sign : Sign) (mantissa : Nat) (exponent : Int)
    (accuracy : Accuracy) :
    roundWithAccuracy Format.binary64 (-sign) mantissa exponent accuracy =
      (roundWithAccuracy Format.binary64 sign mantissa exponent accuracy).neg := by
  unfold roundWithAccuracy
  dsimp only
  split <;> rfl

variable (a b : Float)

protected theorem neg_neg : - -a = a := by
  have hneg : (unpacked a).neg.neg = unpacked a := by
    cases unpacked a with
    | notANumber => rfl
    | infinity sign => cases sign <;> rfl
    | zero sign => cases sign <;> rfl
    | finite sign mantissa exponent positive => cases sign <;> rfl
  rw [neg_eq_packed (-a), unpacked_neg, hneg, packed_unpacked]

protected theorem add_comm : a + b = b + a := by
  rw [add_eq_packed, add_eq_packed]
  congr 1
  cases unpacked a <;> cases unpacked b <;> try rfl
  case infinity.infinity s t => cases s <;> cases t <;> rfl
  case zero.zero s t => cases s <;> cases t <;> rfl
  case finite.finite => simp only [UnpackedFloat.add, Int.add_comm, Int.min_comm]

protected theorem sub_eq_add_neg : a - b = a + -b := by
  rw [add_eq_packed, sub_eq_packed, unpacked_neg]
  congr 1
  cases unpacked a <;> cases unpacked b <;> try rfl
  case finite.finite s m e _ t m' e' _ =>
    simp only [UnpackedFloat.add, UnpackedFloat.sub, UnpackedFloat.neg]
    cases t <;> simp [Sign.apply, Int.sub_eq_add_neg]

protected theorem mul_comm : a * b = b * a := by
  rw [mul_eq_packed, mul_eq_packed]
  congr 1
  cases unpacked a <;> cases unpacked b <;>
    simp only [UnpackedFloat.mul, sign_mul_comm, Nat.mul_comm, Int.add_comm]

protected theorem neg_mul : -a * b = -(a * b) := by
  rw [mul_eq_packed, mul_eq_packed, unpacked_neg, ← packed_neg]
  congr 1
  cases unpacked a <;> cases unpacked b <;>
    simp only [UnpackedFloat.mul, UnpackedFloat.neg, sign_neg_mul, roundWithAccuracy_neg]

protected theorem neg_div : -a / b = -(a / b) := by
  rw [div_eq_packed, div_eq_packed, unpacked_neg, ← packed_neg]
  congr 1
  cases unpacked a <;> cases unpacked b <;>
    simp only [UnpackedFloat.div, UnpackedFloat.neg, sign_neg_div, roundWithAccuracy_neg]

protected theorem div_neg : a / -b = -(a / b) := by
  rw [div_eq_packed, div_eq_packed, unpacked_neg, ← packed_neg]
  congr 1
  cases unpacked a <;> cases unpacked b <;>
    simp only [UnpackedFloat.div, UnpackedFloat.neg, sign_div_neg, roundWithAccuracy_neg]

end Signs

section Units

theorem targetExponent_binary64 (total : Int) :
    Format.binary64.targetExponent total = max (total - 53) (-1074) := rfl

/-- The exponent of a number is the one to which its mantissa would be rounded. -/
theorem targetExponent_of_unpacked {value : Float} {sign : Sign} {mantissa : Nat} {exponent : Int}
    {positive : 0 < mantissa} (h : unpacked value = .finite sign mantissa exponent positive) :
    Format.binary64.targetExponent (totalExponent mantissa exponent) = exponent := by
  have hbias : Format.binary64.exponentBias = 1023 := rfl
  have hfield : (mantissaField value).toNat < 2 ^ 52 := (mantissaField value).isLt
  rw [targetExponent_binary64, totalExponent]
  change UnpackedFloat.unpack Format.binary64 value.toBits.toBitVec = _ at h
  unfold UnpackedFloat.unpack at h
  dsimp only at h
  split at h
  · split at h <;> cases h
  · split at h
    · rename_i hexponent
      split at h
      · cases h
      · obtain ⟨-, rfl, rfl⟩ := UnpackedFloat.finite.inj h
        have hlog : (mantissaField value).toNat.log2 < 52 := (Nat.log2_lt positive.ne').mpr hfield
        change max (((mantissaField value).toNat.log2 : Int) + 1 + _ - 53) _ = _
        rw [hexponent, hbias]
        simp only [BitVec.toNat_ofNat]
        omega
    · rename_i hexponent
      obtain ⟨-, rfl, rfl⟩ := UnpackedFloat.finite.inj h
      have hnonzero : (exponentField value).toNat ≠ 0 :=
        fun h => hexponent (BitVec.eq_of_toNat_eq h)
      have hfull : (1#1 ++ mantissaField value).toNat = 2 ^ 52 + (mantissaField value).toNat := by
        rw [BitVec.toNat_append, ← Nat.shiftLeft_add_eq_or_of_lt hfield]
        rfl
      have hlog : (1#1 ++ mantissaField value).toNat.log2 = 52 := by
        rw [hfull, Nat.log2_eq_iff (by omega)]
        omega
      change max (((1#1 ++ mantissaField value).toNat.log2 : Int) + 1 +
        ((exponentField value).toNat - _) - 53) _ = ((exponentField value).toNat : Int) - _
      rw [hlog, hbias]
      omega

theorem totalExponent_mul_two_pow {mantissa : Nat} (positive : 0 < mantissa) (exponent : Int)
    (shift : Nat) :
    totalExponent (mantissa * 2 ^ shift) (exponent - shift) = totalExponent mantissa exponent := by
  have hlog : (mantissa * 2 ^ shift).log2 = mantissa.log2 + shift := by
    rw [Nat.log2_eq_iff (Nat.mul_pos positive (Nat.two_pow_pos shift)).ne']
    constructor
    · rw [Nat.pow_add]
      exact Nat.mul_le_mul_right _ (Nat.log2_self_le positive.ne')
    · rw [Nat.add_right_comm, Nat.pow_add]
      exact Nat.mul_lt_mul_of_pos_right Nat.lt_log2_self (Nat.two_pow_pos shift)
  rw [totalExponent, totalExponent, hlog]
  omega

theorem shiftRight_mul_two_pow (mantissa shift : Nat) :
    (⟨mantissa * 2 ^ shift, false, false⟩ : ExtendedMantissa) >>> shift =
      ⟨mantissa, false, false⟩ := by
  change shift.repeat ExtendedMantissa.shiftRightOne _ = _
  induction shift generalizing mantissa with
  | zero => simp [Nat.repeat]
  | succ shift ih =>
      have hdouble : mantissa * 2 ^ (shift + 1) = mantissa * 2 * 2 ^ shift := by
        rw [Nat.pow_succ, Nat.mul_assoc, Nat.mul_comm 2]
      rw [hdouble, Nat.repeat, ih]
      simp [ExtendedMantissa.shiftRightOne]

variable {mantissa : Nat} {exponent : Int} (positive : 0 < mantissa)
  (canonical : Format.binary64.targetExponent (totalExponent mantissa exponent) = exponent)

include positive canonical in
theorem shiftToTargetExponent_exact (shift : Nat) :
    shiftToTargetExponent Format.binary64 (mantissa * 2 ^ shift) (exponent - shift) .exact =
      (⟨mantissa, false, false⟩, exponent) := by
  have hamount : (exponent - (exponent - shift)).toNat = shift := by omega
  rw [shiftToTargetExponent, totalExponent_mul_two_pow positive, canonical]
  simp only [shiftToExponent, hamount, ExtendedMantissa.ofMantissaAndAccuracy]
  rw [shiftRight_mul_two_pow, Int.sub_add_cancel]

include canonical in
/-- Zeros below a mantissa are cut off without rounding. -/
theorem roundWithAccuracy_exact (sign : Sign) (shift : Nat) :
    roundWithAccuracy Format.binary64 sign (mantissa * 2 ^ shift) (exponent - shift) .exact =
      .finite sign mantissa exponent positive := by
  have hrounded : (⟨mantissa, false, false⟩ : ExtendedMantissa).roundedMantissa = mantissa := rfl
  have hagain := shiftToTargetExponent_exact positive canonical 0
  rw [Nat.pow_zero, Nat.mul_one, Int.natCast_zero, Int.sub_zero] at hagain
  simp only [roundWithAccuracy, shiftToTargetExponent_exact positive canonical, hrounded, hagain,
    positive.ne', ↓reduceDIte]

include canonical in
/-- A mantissa over that of one is the same mantissa with some zeros below. -/
theorem divCore_one :
    ∃ shift : Nat, divCore Format.binary64 mantissa exponent (2 ^ 52) (-52) =
      (mantissa * 2 ^ shift, exponent - shift, .exact) := by
  have hone : totalExponent (2 ^ 52) (-52) = 1 := rfl
  rw [targetExponent_binary64] at canonical
  rw [divCore, hone, targetExponent_binary64]
  generalize hmin : min (exponent - -52)
    (max (totalExponent mantissa exponent - 1 - 53) (-1074)) = target
  have hlow : target ≤ exponent := by omega
  obtain ⟨shift, hshift⟩ := Int.le.dest hlow
  have htarget : target = exponent - shift := by omega
  have hamount : (exponent - -52 - target).toNat = shift + 52 := by omega
  have hscaled : mantissa <<< (shift + 52) = mantissa * 2 ^ shift * 2 ^ 52 := by
    rw [Nat.shiftLeft_eq, Nat.pow_add, Nat.mul_assoc]
  refine ⟨shift, ?_⟩
  simp only [hamount, hscaled, Nat.mul_mod_left]
  rw [Nat.mul_div_cancel _ (Nat.two_pow_pos 52), htarget]
  rfl

variable (a : Float)

protected theorem mul_one : a * 1 = a := by
  suffices h : UnpackedFloat.mul Format.binary64 (unpacked a) (unpacked 1) = unpacked a by
    rw [mul_eq_packed, h, packed_unpacked]
  rw [unpacked_one]
  cases h : unpacked a with
  | notANumber => rfl
  | infinity sign => cases sign <;> rfl
  | zero sign => cases sign <;> rfl
  | finite sign mantissa exponent positive =>
      have hsign : sign * .positive = sign := by cases sign <;> rfl
      simp only [UnpackedFloat.mul, hsign]
      exact roundWithAccuracy_exact positive (targetExponent_of_unpacked h) sign 52

protected theorem div_one : a / 1 = a := by
  suffices h : UnpackedFloat.div Format.binary64 (unpacked a) (unpacked 1) = unpacked a by
    rw [div_eq_packed, h, packed_unpacked]
  rw [unpacked_one]
  cases h : unpacked a with
  | notANumber => rfl
  | infinity sign => cases sign <;> rfl
  | zero sign => cases sign <;> rfl
  | finite sign mantissa exponent positive =>
      have hsign : sign / .positive = sign := by cases sign <;> rfl
      have canonical := targetExponent_of_unpacked h
      obtain ⟨shift, hcore⟩ := divCore_one canonical
      simp only [UnpackedFloat.div, hcore, hsign]
      exact roundWithAccuracy_exact positive canonical sign shift

end Units

end Formula.Number
