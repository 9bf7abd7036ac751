import Formula.Proofs.Expr.Evaluation
import Formula.Proofs.Number.Arithmetic
import Formula.Proofs.Reduction.Reduces

/-!
The reductions that are exact in the arithmetic of numbers. Folding computes what evaluation
computes, a sign moves without rounding, and one is neutral; these keep what an expression
without variables comes to, to the last bit and also if it is infinite or no number. The
other reductions are exact in a field, and may change the sign of a zero, round in another
place, or drop an operand that is infinite or no number.
-/

namespace Formula

/-- The kinds of steps that keep what every expression without variables comes to. Raising
to the power of one is not among them: it is left to the power function of the platform to
give the base back. -/
def Step.isExact : Step → Bool
  | .foldConstants | .foldFunction | .doubleNegation | .moveLiteralRight => true
  | .addNegative | .addNegativeFirst | .subtractNegative => true
  | .multiplyOne | .multiplyNegative | .divideOne | .divideNegative => true
  | .powerOneLeft | .powerZero | .regroupVariable => true
  | .negateNumber | .addZero | .subtractZero | .subtractFromZero => false
  | .multiplyZero | .extractNumerator | .divideZero | .powerZeroLeft | .powerOne => false
  | .regroupDifferencePlus | .regroupDifferenceMinus | .regroupSumMinus => false

namespace Reduction

open Formula.Expr

theorem evaluate?_of_reduces {step : Step} {e r : Expr} (h : Reduces step e r)
    (exact : step.isExact = true) {v : Float} (hv : e.evaluate? = some v) :
    r.evaluate? = some v := by
  cases h with
  | foldConstants op x y => exact hv
  | foldFunction func x => exact hv
  | doubleNegation a =>
      simp only [evaluate?_neg_iff] at hv
      obtain ⟨_, ⟨x, hx, rfl⟩, rfl⟩ := hv
      rw [Number.neg_neg, hx]
  | moveTermRight x b other =>
      simp only [evaluate?_binary_iff] at hv ⊢
      obtain ⟨x, hx, y, hy, rfl⟩ := hv
      exact ⟨y, hy, x, hx, Number.add_comm y x⟩
  | moveFactorRight x b other =>
      simp only [evaluate?_binary_iff] at hv ⊢
      obtain ⟨x, hx, y, hy, rfl⟩ := hv
      exact ⟨y, hy, x, hx, Number.mul_comm y x⟩
  | addNegativeLiteral a y negative =>
      simp only [evaluate?_binary_iff, evaluate?_literal_iff] at hv ⊢
      obtain ⟨x, hx, _, rfl, rfl⟩ := hv
      refine ⟨x, hx, _, rfl, ?_⟩
      change x - -y = x + y
      rw [Number.sub_eq_add_neg, Number.neg_neg]
  | addNegation a b =>
      simp only [evaluate?_binary_iff, evaluate?_neg_iff] at hv ⊢
      obtain ⟨x, hx, _, ⟨y, hy, rfl⟩, rfl⟩ := hv
      exact ⟨x, hx, y, hy, Number.sub_eq_add_neg x y⟩
  | addNegativeFirst a b =>
      simp only [evaluate?_binary_iff, evaluate?_neg_iff] at hv ⊢
      obtain ⟨_, ⟨x, hx, rfl⟩, y, hy, rfl⟩ := hv
      refine ⟨y, hy, x, hx, ?_⟩
      change y - x = -x + y
      rw [Number.sub_eq_add_neg, Number.add_comm]
  | subtractNegative a y negative =>
      simp only [evaluate?_binary_iff, evaluate?_literal_iff] at hv ⊢
      obtain ⟨x, hx, _, rfl, rfl⟩ := hv
      exact ⟨x, hx, _, rfl, (Number.sub_eq_add_neg x y).symm⟩
  | multiplyOneRight a y one =>
      simp only [evaluate?_binary_iff, evaluate?_literal_iff] at hv
      obtain ⟨x, hx, _, rfl, rfl⟩ := hv
      rw [hx, (Number.beq_one_iff y).mp one]
      exact congrArg some (Number.mul_one x).symm
  | multiplyOneLeft x b one =>
      simp only [evaluate?_binary_iff, evaluate?_literal_iff] at hv
      obtain ⟨_, rfl, y, hy, rfl⟩ := hv
      rw [hy, (Number.beq_one_iff x).mp one]
      exact congrArg some ((Number.mul_comm 1 y).trans (Number.mul_one y)).symm
  | multiplyNegativeLeft a b =>
      simp only [evaluate?_binary_iff, evaluate?_neg_iff] at hv ⊢
      obtain ⟨_, ⟨x, hx, rfl⟩, y, hy, rfl⟩ := hv
      exact ⟨x * y, ⟨x, hx, y, hy, rfl⟩, (Number.neg_mul x y).symm⟩
  | multiplyNegativeRight a b =>
      simp only [evaluate?_binary_iff, evaluate?_neg_iff] at hv ⊢
      obtain ⟨x, hx, _, ⟨y, hy, rfl⟩, rfl⟩ := hv
      refine ⟨x * y, ⟨x, hx, y, hy, rfl⟩, ?_⟩
      change -(x * y) = x * -y
      rw [Number.mul_comm x (-y), Number.neg_mul, Number.mul_comm]
  | divideOne a y one =>
      simp only [evaluate?_binary_iff, evaluate?_literal_iff] at hv
      obtain ⟨x, hx, _, rfl, rfl⟩ := hv
      rw [hx, (Number.beq_one_iff y).mp one]
      exact congrArg some (Number.div_one x).symm
  | divideNegativeTop a b =>
      simp only [evaluate?_binary_iff, evaluate?_neg_iff] at hv ⊢
      obtain ⟨_, ⟨x, hx, rfl⟩, y, hy, rfl⟩ := hv
      exact ⟨x / y, ⟨x, hx, y, hy, rfl⟩, (Number.neg_div x y).symm⟩
  | divideNegativeBottom a b =>
      simp only [evaluate?_binary_iff, evaluate?_neg_iff] at hv ⊢
      obtain ⟨x, hx, _, ⟨y, hy, rfl⟩, rfl⟩ := hv
      exact ⟨x / y, ⟨x, hx, y, hy, rfl⟩, (Number.div_neg x y).symm⟩
  | powerOneLeft x b one =>
      simp only [evaluate?_binary_iff, evaluate?_literal_iff] at hv
      obtain ⟨_, rfl, y, -, rfl⟩ := hv
      change _ = some (Number.power x y)
      rw [Number.power, one, Bool.or_true]
      rfl
  | powerZero a y zero =>
      simp only [evaluate?_binary_iff, evaluate?_literal_iff] at hv
      obtain ⟨x, -, _, rfl, rfl⟩ := hv
      change _ = some (Number.power x y)
      rw [Number.power, zero, Bool.true_or]
      rfl
  | regroupVariableSum name a b other =>
      -- What has a variable comes to nothing that could be kept.
      simp only [evaluate?_binary_iff, evaluate?_var_iff, false_and, exists_false] at hv
  | regroupVariableProduct name a b other =>
      simp only [evaluate?_binary_iff, evaluate?_var_iff, false_and, exists_false] at hv
  | _ => cases exact

end Reduction

end Formula
