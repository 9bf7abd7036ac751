import Mathlib
import Formula.Number.Binary

/-!
Negation and comparison of numbers. A layout is a sign, an exponent field and a mantissa
field, and it stands for zero, a finite number, an infinity or no number. Negation turns
the sign and nothing else. Both zeros are equal to zero and no other number is, one is
equal to itself only, and of a number and its negation at most one is below zero.
-/

namespace Formula.Number

open Float.Model Float.Model.UnpackedFloat

def unpacked (value : Float) : UnpackedFloat := value.toModel.unpack

/-- What a layout stands for has a layout of its own; it is another one only if it
stands for no number. -/
theorem unpack_pack_unpack (layout : BitVec 64) :
    UnpackedFloat.unpack Format.binary64
        (UnpackedFloat.pack Format.binary64 (UnpackedFloat.unpack Format.binary64 layout)) =
      UnpackedFloat.unpack Format.binary64 layout := by
  rw [pack_unpack]
  split
  · rename_i hlayout
    rw [unpack_packedNaN]
    rw [isNaNBits, decide_eq_true_eq] at hlayout
    unfold UnpackedFloat.unpack
    simp only [hlayout.1, hlayout.2, ↓reduceIte]
  · rfl

/-- A layout with the other sign. -/
def turned (layout : BitVec 64) : BitVec 64 :=
  packComponents Format.binary64 (-Sign.ofBitVec (@unpackSign Format.binary64 layout))
    (@unpackExponent Format.binary64 layout) (@unpackMantissa Format.binary64 layout)

/-- Turning the sign of what a layout stands for is turning the sign of the layout. -/
theorem unpack_turned (layout : BitVec 64) :
    UnpackedFloat.unpack Format.binary64 (turned layout) =
      (UnpackedFloat.unpack Format.binary64 layout).neg := by
  unfold turned UnpackedFloat.unpack
  simp only [unpackMantissa_packComponents, unpackExponent_packComponents,
    unpackSign_packComponents, Sign.ofBitVec_toBitVec]
  split
  · split <;> rfl
  · split
    · split <;> rfl
    · rfl

/-- The layout of a negation is the layout of what the turned one stands for. -/
theorem neg_eq_ofBits (value : Float) : -value = .ofBits ⟨turned value.toBits.toBitVec⟩ := by
  have hpack : UnpackedFloat.pack Format.binary64 (unpacked value).neg =
      UnpackedFloat.pack Format.binary64
        (UnpackedFloat.unpack Format.binary64 (turned value.toBits.toBitVec)) :=
    congrArg _ (unpack_turned value.toBits.toBitVec).symm
  apply Float.toBits_inj.mp
  exact UInt64.toBitVec_inj.mp hpack

/-- Negation turns the sign and keeps everything else. -/
theorem unpacked_neg (value : Float) : unpacked (-value) = (unpacked value).neg := by
  rw [neg_eq_ofBits]
  change UnpackedFloat.unpack Format.binary64 (UnpackedFloat.pack Format.binary64
    (UnpackedFloat.unpack Format.binary64 (turned value.toBits.toBitVec))) = _
  rw [unpack_pack_unpack]
  exact unpack_turned value.toBits.toBitVec

theorem isFinite_neg (value : Float) : (-value).isFinite = value.isFinite := by
  change (unpacked (-value)).isFinite = (unpacked value).isFinite
  rw [unpacked_neg]
  cases unpacked value <;> rfl

theorem unpacked_zero : unpacked 0 = .zero .positive := rfl

theorem unpacked_one : unpacked 1 = .finite .positive (2 ^ 52) (-52) (by decide) := rfl

theorem lt_iff_unpacked (a b : Float) : a < b ↔ (unpacked a).lt (unpacked b) = true := by
  change a.lt b = true ↔ _
  rw [Float.lt, decide_eq_true_eq]
  rfl

/-- The numbers below zero are the negative finite ones and negative infinity. -/
theorem lt_zero_iff (value : Float) :
    value < 0 ↔ unpacked value = .infinity .negative ∨
      ∃ mantissa exponent positive, unpacked value = .finite .negative mantissa exponent positive := by
  rw [lt_iff_unpacked, unpacked_zero]
  cases hvalue : unpacked value with
  | infinity sign => cases sign <;> simp [UnpackedFloat.lt, UnpackedFloat.compare]
  | notANumber => simp [UnpackedFloat.lt, UnpackedFloat.compare]
  | zero sign => cases sign <;> simp [UnpackedFloat.lt, UnpackedFloat.compare]
  | finite sign mantissa exponent positive =>
      cases sign <;> simp [UnpackedFloat.lt, UnpackedFloat.compare]
      exact positive

theorem not_neg_lt_zero {value : Float} (h : value < 0) : ¬ -value < 0 := by
  rw [lt_zero_iff, unpacked_neg]
  rcases (lt_zero_iff value).mp h with hinfinity | ⟨mantissa, exponent, positive, hfinite⟩
  · rw [hinfinity]
    simp [UnpackedFloat.neg]
  · rw [hfinite]
    simp [UnpackedFloat.neg]

theorem beq_zero_iff (value : Float) : (value == 0) = true ↔ value = 0 ∨ value = -0 := by
  rw [Float.beq_iff_ne_nan_and_eq]
  constructor
  · rintro ⟨-, -, h | ⟨h, -⟩ | ⟨h, -⟩⟩
    · exact .inl h
    · exact .inl h
    · exact .inr h
  · rintro (rfl | rfl)
    · exact ⟨by decide +kernel, by decide +kernel, .inl rfl⟩
    · exact ⟨by decide +kernel, by decide +kernel, .inr (.inr ⟨rfl, rfl⟩)⟩

/-- Only one is equal to one. -/
theorem beq_one_iff (value : Float) : (value == 1) = true ↔ value = 1 := by
  constructor
  · intro h
    rcases (Float.beq_iff_ne_nan_and_eq.mp h).2.2 with h | ⟨-, h⟩ | ⟨-, h⟩
    · exact h
    · exact absurd h (by decide +kernel)
    · exact absurd h (by decide +kernel)
  · rintro rfl
    rfl

end Formula.Number
