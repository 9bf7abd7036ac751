import Formula.Proofs.Number.Comparison

/-!
The layout of a number as a natural number. The sign bit stands over the exponent field
and that over the mantissa field, so what is below the sign bit is the magnitude. The
magnitude of a finite number is below that of infinity. A number that is not below zero
has no sign, negative zero apart, and is the number of its magnitude; the negation of a
number with a sign is the number of the same magnitude without it.
-/

namespace Formula.Number

open Float.Model Float.Model.UnpackedFloat

theorem toNat_packComponents (sign : Sign) (exponent : BitVec 11) (mantissa : BitVec 52) :
    (packComponents Format.binary64 sign exponent mantissa).toNat =
      sign.toBitVec.toNat * 2 ^ 63 + (exponent.toNat * 2 ^ 52 + mantissa.toNat) := by
  have hexponent : exponent.toNat < 2 ^ 11 := exponent.isLt
  have hmantissa : mantissa.toNat < 2 ^ 52 := mantissa.isLt
  change (sign.toBitVec ++ exponent ++ mantissa).toNat = _
  rw [BitVec.toNat_append, BitVec.toNat_append]
  rw [← Nat.shiftLeft_add_eq_or_of_lt hmantissa, ← Nat.shiftLeft_add_eq_or_of_lt hexponent]
  simp only [Nat.shiftLeft_eq]
  omega

section Fields

variable (value : Float)

def signField : Sign := .ofBitVec (@unpackSign Format.binary64 value.toBits.toBitVec)

def exponentField : BitVec 11 := @unpackExponent Format.binary64 value.toBits.toBitVec

def mantissaField : BitVec 52 := @unpackMantissa Format.binary64 value.toBits.toBitVec

theorem toNat_toBits :
    value.toBits.toNat = (signField value).toBitVec.toNat * 2 ^ 63 +
      ((exponentField value).toNat * 2 ^ 52 + (mantissaField value).toNat) := by
  rw [← toNat_packComponents]
  exact congrArg BitVec.toNat
    (@packComponents_unpackSign_unpackExponent_unpackMantissa Format.binary64
      value.toBits.toBitVec).symm

theorem magnitude_eq_fields :
    magnitude value = (exponentField value).toNat * 2 ^ 52 + (mantissaField value).toNat := by
  have hexponent : (exponentField value).toNat < 2 ^ 11 := (exponentField value).isLt
  have hmantissa : (mantissaField value).toNat < 2 ^ 52 := (mantissaField value).isLt
  rw [magnitude, toNat_toBits]
  change _ % 2 ^ 63 = _
  omega

theorem isSigned_iff : isSigned value = true ↔ signField value = .negative := by
  have hexponent : (exponentField value).toNat < 2 ^ 11 := (exponentField value).isLt
  have hmantissa : (mantissaField value).toNat < 2 ^ 52 := (mantissaField value).isLt
  rw [isSigned, decide_eq_true_eq, toNat_toBits]
  change 2 ^ 63 ≤ _ ↔ _
  cases signField value with
  | positive =>
      change 2 ^ 63 ≤ 0 * 2 ^ 63 + _ ↔ _
      simp only [reduceCtorEq, iff_false]
      omega
  | negative =>
      change 2 ^ 63 ≤ 1 * 2 ^ 63 + _ ↔ _
      simp only [iff_true]
      omega

/-- What a number stands for has the sign of its layout, and it is infinite or no number
at all only if the exponent field is full. -/
theorem unpacked_cases :
    (exponentField value = -1#11 ∧
        (unpacked value = .notANumber ∨ unpacked value = .infinity (signField value))) ∨
      exponentField value ≠ -1#11 ∧
        (unpacked value = .zero (signField value) ∨ ∃ mantissa exponent positive,
          unpacked value = .finite (signField value) mantissa exponent positive) := by
  have hunpack : unpacked value = UnpackedFloat.unpack Format.binary64 value.toBits.toBitVec := rfl
  unfold UnpackedFloat.unpack at hunpack
  dsimp only at hunpack
  split at hunpack
  · rename_i hfull
    refine .inl ⟨hfull, ?_⟩
    split at hunpack
    · exact .inr hunpack
    · exact .inl hunpack
  · rename_i hfull
    refine .inr ⟨hfull, ?_⟩
    split at hunpack
    · split at hunpack
      · exact .inl hunpack
      · exact .inr ⟨_, _, _, hunpack⟩
    · exact .inr ⟨_, _, _, hunpack⟩

theorem magnitude_lt_infinity (finite : value.isFinite = true) :
    magnitude value < infinityMagnitude := by
  have hmantissa : (mantissaField value).toNat < 2 ^ 52 := (mantissaField value).isLt
  have hexponent : (exponentField value).toNat < 2047 := by
    rcases unpacked_cases value with ⟨-, hvalue⟩ | ⟨hfull, -⟩
    · change (unpacked value).isFinite = true at finite
      rcases hvalue with hvalue | hvalue <;>
      · rw [hvalue] at finite
        cases finite
    · have hother : (exponentField value).toNat ≠ 2047 := fun h => hfull (BitVec.eq_of_toNat_eq h)
      have hbound : (exponentField value).toNat < 2 ^ 11 := (exponentField value).isLt
      omega
  rw [magnitude_eq_fields]
  change _ < 2047 * 2 ^ 52
  omega

end Fields

theorem unpacked_inj {a b : Float} : unpacked a = unpacked b ↔ a = b := by
  rw [← Float.toBits_inj, ← UInt64.toBitVec_inj]
  exact unpack_inj_of_valid a.toModel.valid b.toModel.valid

variable {value : Float}

/-- A number below zero has a sign. -/
theorem isSigned_of_lt_zero (h : value < 0) : isSigned value = true := by
  have hsign : ∀ sign, unpacked value = .infinity sign ∨ (∃ mantissa exponent positive,
      unpacked value = .finite sign mantissa exponent positive) → signField value = sign := by
    intro sign h
    rcases unpacked_cases value with ⟨-, hvalue | hvalue⟩ | ⟨-, hvalue | ⟨_, _, _, hvalue⟩⟩ <;>
      rw [hvalue] at h
    · simp at h
    · simpa using h
    · simp at h
    · obtain h | ⟨_, _, _, h⟩ := h
      · cases h
      · exact (UnpackedFloat.finite.inj h).1
  exact (isSigned_iff value).mpr (hsign .negative ((lt_zero_iff value).mp h))

/-- Negative zero is the only finite number that has a sign and is not below zero. -/
theorem isSigned_eq_false (finite : value.isFinite = true) (notBelow : ¬ value < 0)
    (notZero : value ≠ -0) : isSigned value = false := by
  rw [Bool.eq_false_iff, ne_eq, isSigned_iff]
  intro hsign
  have hzero : unpacked (-0) = .zero .negative := rfl
  change (unpacked value).isFinite = true at finite
  rw [lt_zero_iff] at notBelow
  have hcases := unpacked_cases value
  rw [hsign] at hcases
  rcases hcases with ⟨-, hvalue | hvalue⟩ | ⟨-, hvalue | ⟨mantissa, exponent, positive, hvalue⟩⟩
  · rw [hvalue] at finite
    cases finite
  · rw [hvalue] at finite
    cases finite
  · exact notZero (unpacked_inj.mp (hvalue.trans hzero.symm))
  · exact notBelow (.inr ⟨mantissa, exponent, positive, hvalue⟩)

/-- A number without a sign is the number of its magnitude. -/
theorem ofMagnitude_magnitude (h : isSigned value = false) :
    ofMagnitude false (magnitude value) = value := by
  have hlow : value.toBits.toNat < 2 ^ 63 := by
    rw [isSigned, decide_eq_false_iff_not, Nat.not_le] at h
    exact h
  have hmagnitude : magnitude value = value.toBits.toNat := Nat.mod_eq_of_lt hlow
  rw [ofMagnitude, hmagnitude]
  simp only [Bool.false_eq_true, ↓reduceIte, UInt64.ofNat_toNat, Float.ofBits_toBits]

/-- The negation of a number with a sign is the number of its magnitude. -/
theorem ofMagnitude_magnitude_of_isSigned (h : isSigned value = true) :
    ofMagnitude false (magnitude value) = -value := by
  rw [isSigned_iff] at h
  have hturned : (turned value.toBits.toBitVec).toNat = magnitude value := by
    change (packComponents Format.binary64 (-signField value) (exponentField value)
      (mantissaField value)).toNat = _
    rw [magnitude_eq_fields, toNat_packComponents, h]
    change 0 * 2 ^ 63 + _ = _
    omega
  rw [neg_eq_ofBits, ofMagnitude, ← hturned]
  simp only [Bool.false_eq_true, ↓reduceIte]
  congr 1
  apply UInt64.toBitVec_inj.mp
  change BitVec.ofNat 64 _ = _
  rw [BitVec.ofNat_toNat, BitVec.setWidth_eq]

theorem isNaN_eq_false (finite : value.isFinite = true) : value.isNaN = false := by
  change (unpacked value).isFinite = true at finite
  change (unpacked value).isNaN = false
  cases hvalue : unpacked value with
  | notANumber =>
      rw [hvalue] at finite
      cases finite
  | _ => rfl

end Formula.Number
