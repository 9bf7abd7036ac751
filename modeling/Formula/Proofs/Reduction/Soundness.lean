import Mathlib
import Formula.Proofs.Expr.Value
import Formula.Proofs.Reduction.Reduces

/-!
Every reduction keeps the value. Where an expression is defined, what a rule makes of it
is defined and has the same value; folding is apart, since it computes in the arithmetic
of numbers and keeps the value only where that arithmetic is exact. A rule adds no
literal that is not finite, so the same holds of the next reduction.
-/

namespace Formula.Reduction

theorem finiteLiterals_of_reduces {step : Step} {e r : Expr} (h : Reduces step e r)
    (algebraic : step ≠ .foldConstants ∧ step ≠ .foldFunction) (finite : e.FiniteLiterals) :
    r.FiniteLiterals := by
  cases h with
  | foldConstants op v w => exact absurd rfl algebraic.1
  | foldFunction func v => exact absurd rfl algebraic.2
  | negateZero v zero => rfl
  | negateNumber v nonzero => exact (Number.isFinite_neg v).trans finite
  | addNegativeLiteral a v negative => exact ⟨finite.1, (Number.isFinite_neg v).trans finite.2⟩
  | subtractNegative a v negative => exact ⟨finite.1, (Number.isFinite_neg v).trans finite.2⟩
  | multiplyZeroLeft v b zero => rfl
  | multiplyZeroRight a v zero => rfl
  | divideZero v b zero => rfl
  | powerZeroLeft v b zero => rfl
  | powerOneLeft v b one => rfl
  | powerZero a v zero => rfl
  | _ => simp only [Expr.FiniteLiterals] at finite ⊢; tauto

variable {K : Type*} [Field K] (I : Interpretation K) (x : Char → K)

theorem defined_value_of_reduces {step : Step} {e r : Expr} (h : Reduces step e r)
    (algebraic : step ≠ .foldConstants ∧ step ≠ .foldFunction) (finite : e.FiniteLiterals)
    (defined : I.Defined x e) : I.Defined x r ∧ I.value x r = I.value x e := by
  cases h with
  | foldConstants op v w => exact absurd rfl algebraic.1
  | foldFunction func v => exact absurd rfl algebraic.2
  | negateZero v zero => simp [I.number_of_zero zero, I.number_zero]
  | negateNumber v nonzero => simp [I.number_neg v finite]
  | doubleNegation a => exact ⟨defined, (neg_neg _).symm⟩
  | moveTermRight v b other => exact ⟨by simpa using defined, add_comm _ _⟩
  | moveFactorRight v b other => exact ⟨by simpa using defined, mul_comm _ _⟩
  | addZeroRight a v zero => exact ⟨defined.1, by simp [I.number_of_zero zero]⟩
  | addZeroLeft v b zero => exact ⟨defined.2.1, by simp [I.number_of_zero zero]⟩
  | addNegativeLiteral a v negative =>
      exact ⟨by simpa using defined, by simp [I.number_neg v finite.2]⟩
  | addNegation a b => exact ⟨by simpa using defined, by simp [sub_eq_add_neg]⟩
  | addNegativeFirst a b =>
      simp only [Interpretation.defined_add, Interpretation.defined_neg] at defined
      refine ⟨by simpa using defined.symm, ?_⟩
      simp only [Interpretation.value_sub, Interpretation.value_add, Interpretation.value_neg]
      ring
  | subtractZero a v zero => exact ⟨defined.1, by simp [I.number_of_zero zero]⟩
  | subtractFromZero v b zero => exact ⟨defined.2.1, by simp [I.number_of_zero zero]⟩
  | subtractNegative a v negative =>
      exact ⟨by simpa using defined, by simp [I.number_neg v finite.2, sub_eq_add_neg]⟩
  | multiplyOneRight a v one => exact ⟨defined.1, by simp [I.number_of_one one]⟩
  | multiplyOneLeft v b one => exact ⟨defined.2.1, by simp [I.number_of_one one]⟩
  | multiplyZeroLeft v b zero =>
      exact ⟨trivial, by simp [I.number_of_zero zero, I.number_zero]⟩
  | multiplyZeroRight a v zero =>
      exact ⟨trivial, by simp [I.number_of_zero zero, I.number_zero]⟩
  | multiplyNegativeLeft a b => exact ⟨by simpa using defined, by simp⟩
  | multiplyNegativeRight a b => exact ⟨by simpa using defined, by simp⟩
  | extractNumeratorLeft n d b other =>
      simp only [Interpretation.defined_mul, Interpretation.defined_div] at defined ⊢
      obtain ⟨⟨hn, hd, hnonzero⟩, hb⟩ := defined
      refine ⟨⟨hn, hb, hd, hnonzero⟩, ?_⟩
      simp only [Interpretation.value_mul, Interpretation.value_div]
      ring
  | mergeNumeratorLeft n d v =>
      simp only [Interpretation.defined_mul, Interpretation.defined_div] at defined ⊢
      obtain ⟨⟨hn, hd, hnonzero⟩, hv⟩ := defined
      refine ⟨⟨⟨hn, hv⟩, hd, hnonzero⟩, ?_⟩
      simp only [Interpretation.value_mul, Interpretation.value_div]
      ring
  | extractNumeratorRight a n d other =>
      simp only [Interpretation.defined_mul, Interpretation.defined_div] at defined ⊢
      obtain ⟨ha, hn, hd, hnonzero⟩ := defined
      refine ⟨⟨hn, ha, hd, hnonzero⟩, ?_⟩
      simp only [Interpretation.value_mul, Interpretation.value_div]
      ring
  | mergeNumeratorRight v n d =>
      simp only [Interpretation.defined_mul, Interpretation.defined_div] at defined ⊢
      obtain ⟨hv, hn, hd, hnonzero⟩ := defined
      refine ⟨⟨⟨hv, hn⟩, hd, hnonzero⟩, ?_⟩
      simp only [Interpretation.value_mul, Interpretation.value_div]
      ring
  | divideZero v b zero => exact ⟨trivial, by simp [I.number_of_zero zero, I.number_zero]⟩
  | divideOne a v one => exact ⟨defined.1, by simp [I.number_of_one one]⟩
  | divideNegativeTop a b => exact ⟨by simpa using defined, by simp [neg_div]⟩
  | divideNegativeBottom a b => exact ⟨by simpa using defined, by simp [div_neg]⟩
  | powerZeroLeft v b zero =>
      obtain ⟨-, -, hpower⟩ := defined
      have hbase := I.number_of_zero zero
      have hexponent : I.value x b ≠ 0 := fun h => hpower ⟨hbase, h⟩
      exact ⟨trivial, by simp [hbase, I.zero_power _ hexponent, I.number_zero]⟩
  | powerOneLeft v b one =>
      exact ⟨trivial, by simp [I.number_of_one one, I.one_power, I.number_one]⟩
  | powerZero a v zero =>
      obtain ⟨-, -, hpower⟩ := defined
      have hexponent := I.number_of_zero zero
      have hbase : I.value x a ≠ 0 := fun h => hpower ⟨h, hexponent⟩
      exact ⟨trivial, by simp [hexponent, I.power_zero _ hbase, I.number_one]⟩
  | powerOne a v one => exact ⟨defined.1, by simp [I.number_of_one one, I.power_one]⟩
  | regroupVariableSum y a b other =>
      simp only [Interpretation.defined_add] at defined ⊢
      obtain ⟨⟨hy, ha⟩, hb⟩ := defined
      refine ⟨⟨⟨hb, ha⟩, hy⟩, ?_⟩
      simp only [Interpretation.value_add]
      ring
  | regroupVariableProduct y a b other =>
      simp only [Interpretation.defined_mul] at defined ⊢
      obtain ⟨⟨hy, ha⟩, hb⟩ := defined
      refine ⟨⟨⟨hb, ha⟩, hy⟩, ?_⟩
      simp only [Interpretation.value_mul]
      ring
  | regroupDifferencePlus a b c other =>
      simp only [Interpretation.defined_add, Interpretation.defined_sub] at defined ⊢
      obtain ⟨⟨ha, hb⟩, hc⟩ := defined
      refine ⟨⟨⟨ha, hc⟩, hb⟩, ?_⟩
      simp only [Interpretation.value_add, Interpretation.value_sub]
      ring
  | regroupDifferenceMinus a b c =>
      simp only [Interpretation.defined_add, Interpretation.defined_sub] at defined ⊢
      obtain ⟨⟨ha, hb⟩, hc⟩ := defined
      refine ⟨⟨ha, hb, hc⟩, ?_⟩
      simp only [Interpretation.value_add, Interpretation.value_sub]
      ring
  | regroupSumMinus a b c other =>
      simp only [Interpretation.defined_add, Interpretation.defined_sub] at defined ⊢
      obtain ⟨⟨ha, hb⟩, hc⟩ := defined
      refine ⟨⟨ha, hc, hb⟩, ?_⟩
      simp only [Interpretation.value_add, Interpretation.value_sub]
      ring

end Formula.Reduction
