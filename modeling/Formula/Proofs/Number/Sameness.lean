import Formula.Number.Power
import Formula.Proofs.Number.Arithmetic

/-!
Numbers that count as one literal. They are the numbers that are left when negative zero
is taken for zero; whatever is no number is one literal already. What is asked of a
literal is whether it is zero, one or below zero, and these marks do not tell the zeros
apart.
-/

namespace Formula.Number

def plainZero (value : Float) : Float := if value == 0 then 0 else value

theorem zero_ne_nan : (0 : Float) ≠ Float.nan ∧ (-0 : Float) ≠ Float.nan := by decide +kernel

/-- Two numbers count as one literal if only the sign of zero can tell them apart. -/
theorem same_iff (a b : Float) : same a b = true ↔ plainZero a = plainZero b := by
  have ha := beq_zero_iff a
  have hb := beq_zero_iff b
  have hzero := zero_ne_nan
  rw [same, Bool.or_eq_true, Bool.and_eq_true, Float.beq_iff_ne_nan_and_eq,
    Float.isNaN_eq_decide_eq_nan, Float.isNaN_eq_decide_eq_nan, decide_eq_true_eq,
    decide_eq_true_eq, plainZero, plainZero]
  grind

theorem neg_eq_iff (a b : Float) : -a = b ↔ a = -b := by
  constructor
  · rintro rfl
    rw [Number.neg_neg]
  · rintro rfl
    rw [Number.neg_neg]

theorem neg_beq_zero (value : Float) : (-value == 0) = (value == 0) := by
  rw [Bool.eq_iff_iff, beq_zero_iff, beq_zero_iff, neg_eq_iff, neg_eq_iff, Number.neg_neg, or_comm]

theorem beq_zero_eq_false {value : Float} (h : value < 0) : (value == 0) = false := by
  rw [Bool.eq_false_iff, ne_eq, beq_zero_iff]
  rintro (rfl | rfl)
  · exact absurd h (by decide +kernel)
  · exact absurd h (by decide +kernel)

/-- The map keeps whether a number is zero, one or below zero, and keeps the numbers that
are put in for such a mark. -/
structure KeepsMarks (f : Float → Float) : Prop where
  beq_zero : ∀ value, (f value == 0) = (value == 0)
  beq_one : ∀ value, (f value == 1) = (value == 1)
  lt_zero : ∀ value, f value < 0 ↔ value < 0
  map_neg : ∀ value, (value == 0) = false → f (-value) = -f value
  map_zero : f 0 = 0
  map_one : f 1 = 1

theorem keepsMarks_id : KeepsMarks id where
  beq_zero _ := rfl
  beq_one _ := rfl
  lt_zero _ := Iff.rfl
  map_neg _ _ := rfl
  map_zero := rfl
  map_one := rfl

theorem plainZero_of_zero {value : Float} (h : (value == 0) = true) : plainZero value = 0 :=
  if_pos h

theorem plainZero_of_nonzero {value : Float} (h : (value == 0) = false) :
    plainZero value = value := by
  rw [plainZero, h]
  rfl

theorem keepsMarks_plainZero : KeepsMarks plainZero where
  beq_zero value := by
    cases hzero : value == 0 with
    | true => rw [plainZero_of_zero hzero]; rfl
    | false => rw [plainZero_of_nonzero hzero, hzero]
  beq_one value := by
    cases hzero : value == 0 with
    | true =>
        rw [plainZero_of_zero hzero]
        rcases (beq_zero_iff value).mp hzero with rfl | rfl
        · rfl
        · decide +kernel
    | false => rw [plainZero_of_nonzero hzero]
  lt_zero value := by
    cases hzero : value == 0 with
    | true =>
        rw [plainZero_of_zero hzero]
        rcases (beq_zero_iff value).mp hzero with rfl | rfl
        · rfl
        · decide +kernel
    | false => rw [plainZero_of_nonzero hzero]
  map_neg value nonzero := by
    have hneg : (-value == 0) = false := (neg_beq_zero value).trans nonzero
    rw [plainZero_of_nonzero nonzero, plainZero_of_nonzero hneg]
  map_zero := plainZero_of_zero rfl
  map_one := plainZero_of_nonzero rfl

end Formula.Number
