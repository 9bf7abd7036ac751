import Mathlib
import Formula.Number.Shortest

/-!
Rounding does nothing to what needs none. The magnitude nearest to a whole number of
units is the one that stands for it, so the exact decimal of a magnitude reads back; any
other decimal that `shortest` finds has been tried before.
-/

namespace Formula

namespace Number

theorem roundEven_mul (whole : Nat) {denominator : Nat} (h : 0 < denominator) :
    roundEven (whole * denominator) denominator = whole := by
  unfold roundEven
  rw [Nat.mul_div_cancel whole h, Nat.mul_mod_left]
  exact if_neg (by omega)

/-- A significand that was moved up by `shift` bits is found again: the shift from the
logarithm of the whole, and the significand from the quotient, which is exact. -/
theorem nearest_of_shift {numerator denominator significand shift : Nat} (h : 0 < denominator)
    (exact : numerator * Nat.pow 2 1074 = significand * 2 ^ shift * denominator)
    (places : (significand * 2 ^ shift).log2 - 52 = shift)
    (finite : shift * 2 ^ 52 + significand ≤ infinityMagnitude) :
    nearest numerator denominator = shift * 2 ^ 52 + significand := by
  have hscale : significand * 2 ^ shift * denominator = significand * (denominator * 2 ^ shift) := by
    rw [Nat.mul_assoc, Nat.mul_comm (2 ^ shift)]
  unfold nearest
  rw [exact]
  dsimp only
  rw [Nat.mul_div_cancel _ h, places, hscale]
  change min (shift * 2 ^ 52 + roundEven (significand * (denominator * 2 ^ shift))
    (denominator * 2 ^ shift)) infinityMagnitude = _
  rw [roundEven_mul significand (Nat.mul_pos h (Nat.two_pow_pos shift))]
  exact Nat.min_eq_left finite

/-- The magnitude nearest to the number of a magnitude is that magnitude. -/
theorem nearest_units {magnitude numerator denominator : Nat} (finite : magnitude < infinityMagnitude)
    (h : 0 < denominator)
    (exact : numerator * Nat.pow 2 1074 = units magnitude * denominator) :
    nearest numerator denominator = magnitude := by
  unfold units at exact
  split at exact
  -- The units of a magnitude with an empty exponent field are the magnitude itself.
  · rename_i hsmall
    have hplaces : (magnitude * 2 ^ 0).log2 - 52 = 0 := by
      rw [pow_zero, Nat.mul_one]
      rcases Nat.eq_zero_or_pos magnitude with rfl | hpos
      · rfl
      · have hlog : magnitude.log2 < 52 := (Nat.log2_lt (Nat.ne_of_gt hpos)).mpr hsmall
        omega
    have hnearest := nearest_of_shift h (by rw [exact, pow_zero, Nat.mul_one]) hplaces (by omega)
    omega
  · rename_i hlarge
    change ¬ magnitude < 2 ^ 52 at hlarge
    change _ = (2 ^ 52 + magnitude % 2 ^ 52) * 2 ^ (magnitude / 2 ^ 52 - 1) * denominator at exact
    have hsplit := Nat.div_add_mod magnitude (2 ^ 52)
    have hlow : magnitude % 2 ^ 52 < 2 ^ 52 := Nat.mod_lt magnitude (Nat.two_pow_pos 52)
    generalize magnitude / 2 ^ 52 = field at *
    generalize magnitude % 2 ^ 52 = mantissa at *
    have hplaces : ((2 ^ 52 + mantissa) * 2 ^ (field - 1)).log2 = 52 + (field - 1) := by
      have hpos : 0 < 2 ^ (field - 1) := Nat.two_pow_pos (field - 1)
      rw [Nat.log2_eq_iff (Nat.ne_of_gt (Nat.mul_pos (by omega) hpos)), Nat.add_right_comm,
        pow_add, pow_add]
      exact ⟨Nat.mul_le_mul_right _ (by omega), Nat.mul_lt_mul_of_pos_right (by omega) hpos⟩
    have hnearest := nearest_of_shift h exact (by rw [hplaces, Nat.add_sub_cancel_left]) (by omega)
    omega

end Number

namespace Decimal

theorem magnitude_negSucc {magnitude digits e : Nat} (finite : magnitude < Number.infinityMagnitude)
    (exact : digits * Nat.pow 2 1074 = Number.units magnitude * Nat.pow 10 (e + 1)) :
    (Decimal.mk digits (.negSucc e)).magnitude = magnitude :=
  Number.nearest_units finite (Nat.pow_pos (by decide)) exact

theorem mul_five_pow_mul_two_pow (m n : Nat) :
    m * Nat.pow 5 n * Nat.pow 2 n = m * Nat.pow 10 n := by
  rw [Nat.mul_assoc]
  exact congrArg (m * ·) (Nat.mul_pow 5 2 n).symm

theorem magnitude_exact {magnitude : Nat} (finite : magnitude < Number.infinityMagnitude) :
    (exact magnitude).magnitude = magnitude := by
  have hplaces : ∀ e, e + 1 = 1074 →
      (Decimal.mk (Number.units magnitude * Nat.pow 5 1074) (.negSucc e)).magnitude = magnitude := by
    intro e h
    apply magnitude_negSucc finite
    rw [← h]
    exact mul_five_pow_mul_two_pow (Number.units magnitude) (e + 1)
  exact hplaces 1073 rfl

theorem magnitude_shortest {magnitude : Nat} (finite : magnitude < Number.infinityMagnitude) :
    (shortest magnitude).magnitude = magnitude := by
  unfold shortest
  split
  · rename_i hzero
    rw [hzero]
    decide +kernel
  · cases hfound : (List.range' 1 17).findSome? (withPrecision? magnitude) with
    | none => exact magnitude_exact finite
    | some decimal =>
        obtain ⟨precision, -, hprecision⟩ := List.exists_of_findSome?_eq_some hfound
        have hback := List.find?_some hprecision
        exact of_decide_eq_true hback

end Decimal

end Formula
