import Formula.Reduction.Rule

/-!
What the rules can do. `Reduces step e e'` lists every form that a reduction may take,
one for each side on which a rule looks, with the condition under which it applies. A
rule does nothing else: whatever it makes of an expression is listed. The list says
less than the rules do about which of two forms comes first.
-/

namespace Formula.Reduction

inductive Reduces : Step → Expr → Expr → Prop
  | foldConstants (op : BinaryOp) (v w : Float) :
      Reduces .foldConstants (.binary op (.literal v) (.literal w)) (.literal (op.apply v w))
  | foldFunction (func : Func) (v : Float) :
      Reduces .foldFunction (.call func (.literal v)) (.literal (func.apply v))
  | negateZero (v : Float) (zero : (v == 0) = true) :
      Reduces .negateNumber (.neg (.literal v)) (.literal 0)
  | negateNumber (v : Float) (nonzero : (v == 0) = false) :
      Reduces .negateNumber (.neg (.literal v)) (.literal (-v))
  | doubleNegation (a : Expr) : Reduces .doubleNegation (.neg (.neg a)) a
  | moveTermRight (v : Float) (b : Expr) (other : b.isLiteral = false) :
      Reduces .moveLiteralRight (.add (.literal v) b) (.add b (.literal v))
  | moveFactorRight (v : Float) (b : Expr) (other : b.isLiteral = false) :
      Reduces .moveLiteralRight (.mul (.literal v) b) (.mul b (.literal v))
  | addZeroRight (a : Expr) (v : Float) (zero : (v == 0) = true) :
      Reduces .addZero (.add a (.literal v)) a
  | addZeroLeft (v : Float) (b : Expr) (zero : (v == 0) = true) :
      Reduces .addZero (.add (.literal v) b) b
  | addNegativeLiteral (a : Expr) (v : Float) (negative : v < 0) :
      Reduces .addNegative (.add a (.literal v)) (.sub a (.literal (-v)))
  | addNegation (a b : Expr) : Reduces .addNegative (.add a (.neg b)) (.sub a b)
  | addNegativeFirst (a b : Expr) : Reduces .addNegativeFirst (.add (.neg a) b) (.sub b a)
  | subtractZero (a : Expr) (v : Float) (zero : (v == 0) = true) :
      Reduces .subtractZero (.sub a (.literal v)) a
  | subtractFromZero (v : Float) (b : Expr) (zero : (v == 0) = true) :
      Reduces .subtractFromZero (.sub (.literal v) b) (.neg b)
  | subtractNegative (a : Expr) (v : Float) (negative : v < 0) :
      Reduces .subtractNegative (.sub a (.literal v)) (.add a (.literal (-v)))
  | multiplyOneRight (a : Expr) (v : Float) (one : (v == 1) = true) :
      Reduces .multiplyOne (.mul a (.literal v)) a
  | multiplyOneLeft (v : Float) (b : Expr) (one : (v == 1) = true) :
      Reduces .multiplyOne (.mul (.literal v) b) b
  | multiplyZeroLeft (v : Float) (b : Expr) (zero : (v == 0) = true) :
      Reduces .multiplyZero (.mul (.literal v) b) (.literal 0)
  | multiplyZeroRight (a : Expr) (v : Float) (zero : (v == 0) = true) :
      Reduces .multiplyZero (.mul a (.literal v)) (.literal 0)
  | multiplyNegativeLeft (a b : Expr) :
      Reduces .multiplyNegative (.mul (.neg a) b) (.neg (.mul a b))
  | multiplyNegativeRight (a b : Expr) :
      Reduces .multiplyNegative (.mul a (.neg b)) (.neg (.mul a b))
  | extractNumeratorLeft (n : Float) (d b : Expr) (other : b.isLiteral = false) :
      Reduces .extractNumerator (.mul (.div (.literal n) d) b) (.mul (.literal n) (.div b d))
  | mergeNumeratorLeft (n : Float) (d : Expr) (v : Float) :
      Reduces .extractNumerator (.mul (.div (.literal n) d) (.literal v))
        (.div (.mul (.literal n) (.literal v)) d)
  | extractNumeratorRight (a : Expr) (n : Float) (d : Expr) (other : a.isLiteral = false) :
      Reduces .extractNumerator (.mul a (.div (.literal n) d)) (.mul (.literal n) (.div a d))
  | mergeNumeratorRight (v n : Float) (d : Expr) :
      Reduces .extractNumerator (.mul (.literal v) (.div (.literal n) d))
        (.div (.mul (.literal v) (.literal n)) d)
  | divideZero (v : Float) (b : Expr) (zero : (v == 0) = true) :
      Reduces .divideZero (.div (.literal v) b) (.literal 0)
  | divideOne (a : Expr) (v : Float) (one : (v == 1) = true) :
      Reduces .divideOne (.div a (.literal v)) a
  | divideNegativeTop (a b : Expr) :
      Reduces .divideNegative (.div (.neg a) b) (.neg (.div a b))
  | divideNegativeBottom (a b : Expr) :
      Reduces .divideNegative (.div a (.neg b)) (.neg (.div a b))
  | powerZeroLeft (v : Float) (b : Expr) (zero : (v == 0) = true) :
      Reduces .powerZeroLeft (.pow (.literal v) b) (.literal 0)
  | powerOneLeft (v : Float) (b : Expr) (one : (v == 1) = true) :
      Reduces .powerOneLeft (.pow (.literal v) b) (.literal 1)
  | powerZero (a : Expr) (v : Float) (zero : (v == 0) = true) :
      Reduces .powerZero (.pow a (.literal v)) (.literal 1)
  | powerOne (a : Expr) (v : Float) (one : (v == 1) = true) :
      Reduces .powerOne (.pow a (.literal v)) a
  | regroupVariableSum (x : Char) (a b : Expr) (other : b.isVariable = false) :
      Reduces .regroupVariable (.add (.add (.var x) a) b) (.add (.add b a) (.var x))
  | regroupVariableProduct (x : Char) (a b : Expr) (other : b.isVariable = false) :
      Reduces .regroupVariable (.mul (.mul (.var x) a) b) (.mul (.mul b a) (.var x))
  | regroupDifferencePlus (a b c : Expr) (other : ¬(a.isLiteral = true ∧ b.isLiteral = true)) :
      Reduces .regroupDifferencePlus (.add (.sub a b) c) (.sub (.add a c) b)
  | regroupDifferenceMinus (a b c : Expr) :
      Reduces .regroupDifferenceMinus (.sub (.sub a b) c) (.sub a (.add b c))
  | regroupSumMinus (a b c : Expr) (other : ¬(a.isLiteral = true ∧ b.isLiteral = true)) :
      Reduces .regroupSumMinus (.sub (.add a b) c) (.sub a (.sub c b))

theorem eq_literal_of_isLiteral {e : Expr} (h : e.isLiteral = true) : ∃ v, e = .literal v := by
  cases e with
  | literal v => exact ⟨v, rfl⟩
  | _ => cases h

theorem eq_literal_of_isNumber {e : Expr} {w : Float} (h : e.isNumber w = true) :
    ∃ v, e = .literal v ∧ (v == w) = true := by
  cases e with
  | literal v => exact ⟨v, rfl, h⟩
  | _ => cases h

theorem reduces_of_foldConstants {e r : Expr} (h : foldConstants e = some r) :
    Reduces .foldConstants e r := by
  unfold foldConstants at h
  split at h
  · cases h
    exact .foldConstants ..
  · cases h

theorem reduces_of_foldFunction {e r : Expr} (h : foldFunction e = some r) :
    Reduces .foldFunction e r := by
  unfold foldFunction at h
  split at h
  · cases h
    exact .foldFunction ..
  · cases h

theorem reduces_of_negateNumber {e r : Expr} (h : negateNumber e = some r) :
    Reduces .negateNumber e r := by
  unfold negateNumber at h
  split at h
  · rename_i v
    cases h
    cases hzero : v == 0 with
    | true => exact .negateZero v hzero
    | false => exact .negateNumber v hzero
  · cases h

theorem reduces_of_doubleNegation {e r : Expr} (h : doubleNegation e = some r) :
    Reduces .doubleNegation e r := by
  unfold doubleNegation at h
  split at h
  · cases h
    exact .doubleNegation r
  · cases h

theorem reduces_of_moveLiteralRight {op : BinaryOp} {e r : Expr}
    (hop : op = .add ∨ op = .mul) (h : moveLiteralRight op e = some r) :
    Reduces .moveLiteralRight e r := by
  unfold moveLiteralRight at h
  split at h
  · rename_i own a b
    rw [Option.ite_none_right_eq_some] at h
    obtain ⟨⟨rfl, hleft, hright⟩, hr⟩ := h
    cases hr
    obtain ⟨v, rfl⟩ := eq_literal_of_isLiteral hleft
    rw [Bool.not_eq_true'] at hright
    rcases hop with rfl | rfl
    · exact .moveTermRight v b hright
    · exact .moveFactorRight v b hright
  · cases h

theorem reduces_of_addZero {e r : Expr} (h : addZero e = some r) : Reduces .addZero e r := by
  unfold addZero at h
  split at h
  · rename_i a b
    split at h
    · rename_i hzero
      cases h
      obtain ⟨v, rfl, hv⟩ := eq_literal_of_isNumber hzero
      exact .addZeroRight _ v hv
    · rw [Option.ite_none_right_eq_some] at h
      obtain ⟨hzero, hr⟩ := h
      cases hr
      obtain ⟨v, rfl, hv⟩ := eq_literal_of_isNumber hzero
      exact .addZeroLeft v _ hv
  · cases h

theorem reduces_of_addNegative {e r : Expr} (h : addNegative e = some r) :
    Reduces .addNegative e r := by
  unfold addNegative at h
  split at h
  · rename_i a v
    rw [Option.ite_none_right_eq_some] at h
    obtain ⟨hnegative, hr⟩ := h
    cases hr
    exact .addNegativeLiteral a v hnegative
  · cases h
    exact .addNegation ..
  · cases h

theorem reduces_of_addNegativeFirst {e r : Expr} (h : addNegativeFirst e = some r) :
    Reduces .addNegativeFirst e r := by
  unfold addNegativeFirst at h
  split at h
  · cases h
    exact .addNegativeFirst ..
  · cases h

theorem reduces_of_subtractZero {e r : Expr} (h : subtractZero e = some r) :
    Reduces .subtractZero e r := by
  unfold subtractZero at h
  split at h
  · rw [Option.ite_none_right_eq_some] at h
    obtain ⟨hzero, hr⟩ := h
    cases hr
    obtain ⟨v, rfl, hv⟩ := eq_literal_of_isNumber hzero
    exact .subtractZero _ v hv
  · cases h

theorem reduces_of_subtractFromZero {e r : Expr} (h : subtractFromZero e = some r) :
    Reduces .subtractFromZero e r := by
  unfold subtractFromZero at h
  split at h
  · rw [Option.ite_none_right_eq_some] at h
    obtain ⟨hzero, hr⟩ := h
    cases hr
    obtain ⟨v, rfl, hv⟩ := eq_literal_of_isNumber hzero
    exact .subtractFromZero v _ hv
  · cases h

theorem reduces_of_subtractNegative {e r : Expr} (h : subtractNegative e = some r) :
    Reduces .subtractNegative e r := by
  unfold subtractNegative at h
  split at h
  · rename_i a v
    rw [Option.ite_none_right_eq_some] at h
    obtain ⟨hnegative, hr⟩ := h
    cases hr
    exact .subtractNegative a v hnegative
  · cases h

theorem reduces_of_multiplyOne {e r : Expr} (h : multiplyOne e = some r) :
    Reduces .multiplyOne e r := by
  unfold multiplyOne at h
  split at h
  · split at h
    · rename_i hone
      cases h
      obtain ⟨v, rfl, hv⟩ := eq_literal_of_isNumber hone
      exact .multiplyOneRight _ v hv
    · rw [Option.ite_none_right_eq_some] at h
      obtain ⟨hone, hr⟩ := h
      cases hr
      obtain ⟨v, rfl, hv⟩ := eq_literal_of_isNumber hone
      exact .multiplyOneLeft v _ hv
  · cases h

theorem reduces_of_multiplyZero {e r : Expr} (h : multiplyZero e = some r) :
    Reduces .multiplyZero e r := by
  unfold multiplyZero at h
  split at h
  · rw [Option.ite_none_right_eq_some, Bool.or_eq_true] at h
    obtain ⟨hleft | hright, hr⟩ := h
    · cases hr
      obtain ⟨v, rfl, hv⟩ := eq_literal_of_isNumber hleft
      exact .multiplyZeroLeft v _ hv
    · cases hr
      obtain ⟨v, rfl, hv⟩ := eq_literal_of_isNumber hright
      exact .multiplyZeroRight _ v hv
  · cases h

theorem reduces_of_multiplyNegative {e r : Expr} (h : multiplyNegative e = some r) :
    Reduces .multiplyNegative e r := by
  unfold multiplyNegative at h
  split at h
  · cases h
    exact .multiplyNegativeLeft ..
  · cases h
    exact .multiplyNegativeRight ..
  · cases h

theorem eq_div_of_literalFraction? {e d : Expr} {n : Float} (h : literalFraction? e = some (n, d)) :
    e = .div (.literal n) d := by
  unfold literalFraction? at h
  split at h
  · cases h
    rfl
  · cases h

theorem reduces_of_extractNumerator {e r : Expr} (h : extractNumerator e = some r) :
    Reduces .extractNumerator e r := by
  unfold extractNumerator at h
  split at h
  · rename_i a b
    split at h
    · rename_i n d hfraction
      cases eq_div_of_literalFraction? hfraction
      cases h
      cases hb : b.isLiteral with
      | true =>
          obtain ⟨v, rfl⟩ := eq_literal_of_isLiteral hb
          exact .mergeNumeratorLeft n d v
      | false => exact .extractNumeratorLeft n d b hb
    · rename_i n d _ hfraction
      cases eq_div_of_literalFraction? hfraction
      cases h
      cases ha : a.isLiteral with
      | true =>
          obtain ⟨v, rfl⟩ := eq_literal_of_isLiteral ha
          exact .mergeNumeratorRight v n d
      | false => exact .extractNumeratorRight a n d ha
    · cases h
  · cases h

theorem reduces_of_divideZero {e r : Expr} (h : divideZero e = some r) :
    Reduces .divideZero e r := by
  unfold divideZero at h
  split at h
  · rw [Option.ite_none_right_eq_some] at h
    obtain ⟨hzero, hr⟩ := h
    cases hr
    obtain ⟨v, rfl, hv⟩ := eq_literal_of_isNumber hzero
    exact .divideZero v _ hv
  · cases h

theorem reduces_of_divideOne {e r : Expr} (h : divideOne e = some r) :
    Reduces .divideOne e r := by
  unfold divideOne at h
  split at h
  · rw [Option.ite_none_right_eq_some] at h
    obtain ⟨hone, hr⟩ := h
    cases hr
    obtain ⟨v, rfl, hv⟩ := eq_literal_of_isNumber hone
    exact .divideOne _ v hv
  · cases h

theorem reduces_of_divideNegative {e r : Expr} (h : divideNegative e = some r) :
    Reduces .divideNegative e r := by
  unfold divideNegative at h
  split at h
  · cases h
    exact .divideNegativeTop ..
  · cases h
    exact .divideNegativeBottom ..
  · cases h

theorem reduces_of_powerZeroLeft {e r : Expr} (h : powerZeroLeft e = some r) :
    Reduces .powerZeroLeft e r := by
  unfold powerZeroLeft at h
  split at h
  · rw [Option.ite_none_right_eq_some] at h
    obtain ⟨hzero, hr⟩ := h
    cases hr
    obtain ⟨v, rfl, hv⟩ := eq_literal_of_isNumber hzero
    exact .powerZeroLeft v _ hv
  · cases h

theorem reduces_of_powerOneLeft {e r : Expr} (h : powerOneLeft e = some r) :
    Reduces .powerOneLeft e r := by
  unfold powerOneLeft at h
  split at h
  · rw [Option.ite_none_right_eq_some] at h
    obtain ⟨hone, hr⟩ := h
    cases hr
    obtain ⟨v, rfl, hv⟩ := eq_literal_of_isNumber hone
    exact .powerOneLeft v _ hv
  · cases h

theorem reduces_of_powerZero {e r : Expr} (h : powerZero e = some r) :
    Reduces .powerZero e r := by
  unfold powerZero at h
  split at h
  · rw [Option.ite_none_right_eq_some] at h
    obtain ⟨hzero, hr⟩ := h
    cases hr
    obtain ⟨v, rfl, hv⟩ := eq_literal_of_isNumber hzero
    exact .powerZero _ v hv
  · cases h

theorem reduces_of_powerOne {e r : Expr} (h : powerOne e = some r) :
    Reduces .powerOne e r := by
  unfold powerOne at h
  split at h
  · rw [Option.ite_none_right_eq_some] at h
    obtain ⟨hone, hr⟩ := h
    cases hr
    obtain ⟨v, rfl, hv⟩ := eq_literal_of_isNumber hone
    exact .powerOne _ v hv
  · cases h

theorem reduces_of_regroupVariable {e r : Expr} (h : regroupVariable e = some r) :
    Reduces .regroupVariable e r := by
  have eq_var {x : Expr} (hx : x.isVariable = true) : ∃ name, x = .var name := by
    cases x with
    | var name => exact ⟨name, rfl⟩
    | _ => cases hx
  unfold regroupVariable at h
  split at h
  · rename_i x a b
    rw [Option.ite_none_right_eq_some] at h
    obtain ⟨⟨hx, hb⟩, hr⟩ := h
    cases hr
    obtain ⟨name, rfl⟩ := eq_var hx
    exact .regroupVariableSum name a b (by simpa using hb)
  · rename_i x a b
    rw [Option.ite_none_right_eq_some] at h
    obtain ⟨⟨hx, hb⟩, hr⟩ := h
    cases hr
    obtain ⟨name, rfl⟩ := eq_var hx
    exact .regroupVariableProduct name a b (by simpa using hb)
  · cases h

theorem reduces_of_regroupDifferencePlus {e r : Expr} (h : regroupDifferencePlus e = some r) :
    Reduces .regroupDifferencePlus e r := by
  unfold regroupDifferencePlus at h
  split at h
  · rw [Option.ite_none_left_eq_some] at h
    obtain ⟨hother, hr⟩ := h
    cases hr
    exact .regroupDifferencePlus _ _ _ hother
  · cases h

theorem reduces_of_regroupDifferenceMinus {e r : Expr} (h : regroupDifferenceMinus e = some r) :
    Reduces .regroupDifferenceMinus e r := by
  unfold regroupDifferenceMinus at h
  split at h
  · cases h
    exact .regroupDifferenceMinus ..
  · cases h

theorem reduces_of_regroupSumMinus {e r : Expr} (h : regroupSumMinus e = some r) :
    Reduces .regroupSumMinus e r := by
  unfold regroupSumMinus at h
  split at h
  · rw [Option.ite_none_left_eq_some] at h
    obtain ⟨hother, hr⟩ := h
    cases hr
    exact .regroupSumMinus _ _ _ hother
  · cases h

/-- The rules without regrouping are among the rules with it. -/
theorem mem_table_true {regroup : Bool} {rule : Rule} (member : rule ∈ Rule.table regroup) :
    rule ∈ Rule.table true := by
  cases regroup with
  | true => exact member
  | false => exact List.mem_append_left _ member

/-- A rule of the table does nothing that is not listed for its step. -/
theorem reduces_of_mem {regroup : Bool} {rule : Rule} (member : rule ∈ Rule.table regroup)
    {e r : Expr} (h : rule.reduce e = some r) : Reduces rule.step e r := by
  have hmember : rule ∈ Rule.basic ++ Rule.regrouping := mem_table_true member
  simp only [Rule.basic, Rule.regrouping, List.cons_append, List.nil_append, List.mem_cons,
    List.not_mem_nil, or_false] at hmember
  rcases hmember with rfl | rfl | rfl | rfl | rfl | rfl | rfl | rfl | rfl | rfl | rfl | rfl | rfl |
    rfl | rfl | rfl | rfl | rfl | rfl | rfl | rfl | rfl | rfl | rfl | rfl | rfl | rfl
  · exact reduces_of_foldConstants h
  · exact reduces_of_foldFunction h
  · exact reduces_of_negateNumber h
  · exact reduces_of_doubleNegation h
  · exact reduces_of_moveLiteralRight (.inl rfl) h
  · exact reduces_of_addZero h
  · exact reduces_of_addNegative h
  · exact reduces_of_addNegativeFirst h
  · exact reduces_of_subtractZero h
  · exact reduces_of_subtractFromZero h
  · exact reduces_of_subtractNegative h
  · exact reduces_of_moveLiteralRight (.inr rfl) h
  · exact reduces_of_multiplyOne h
  · exact reduces_of_multiplyZero h
  · exact reduces_of_multiplyNegative h
  · exact reduces_of_extractNumerator h
  · exact reduces_of_divideZero h
  · exact reduces_of_divideOne h
  · exact reduces_of_divideNegative h
  · exact reduces_of_powerZeroLeft h
  · exact reduces_of_powerOneLeft h
  · exact reduces_of_powerZero h
  · exact reduces_of_powerOne h
  · exact reduces_of_regroupVariable h
  · exact reduces_of_regroupDifferencePlus h
  · exact reduces_of_regroupDifferenceMinus h
  · exact reduces_of_regroupSumMinus h

/-- What the first rule that applies does is listed for the step that it reports. -/
theorem reduces_of_fireFirst? {regroup : Bool} {e r : Expr} {step : Step}
    (h : Rule.fireFirst? (Rule.table regroup) e = some (step, r)) : Reduces step e r := by
  obtain ⟨rule, member, hfire⟩ := List.exists_of_findSome?_eq_some h
  obtain ⟨reduct, hreduce, hpair⟩ := Option.map_eq_some_iff.mp hfire
  cases hpair
  exact reduces_of_mem member hreduce

end Formula.Reduction
