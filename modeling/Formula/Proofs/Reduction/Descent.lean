import Formula.Expr.Size
import Formula.Proofs.Expr.Inside
import Formula.Proofs.Number.Comparison
import Formula.Proofs.Reduction.Reduces

/-!
Why reducing comes to an end. Many rules keep the number of nodes, and they pull in
opposite directions: literals move right, signs turn additions into subtractions and
back, negations move out of products, numerators move out of fractions, and regrouping
turns chains around. Six more quantities tell them apart. Compared in the order of their
definition, with the number of nodes first, every reduction lowers the first quantity
that it changes, and it does so wherever in an expression it takes place.
-/

namespace Formula.Expr

def negatives : Expr → Nat
  | .literal value => if value < 0 then 1 else 0
  | .var _ => 0
  | .neg operand | .call _ operand => operand.negatives
  | .binary _ lhs rhs => lhs.negatives + rhs.negatives

/-- Products and quotients multiply, so a negation weighs more inside of one than
outside. -/
def spread : Expr → Nat
  | .literal _ | .var _ => 2
  | .neg operand => operand.spread + 1
  | .call _ operand => operand.spread
  | .mul lhs rhs | .div lhs rhs => lhs.spread * rhs.spread
  | .binary _ lhs rhs => lhs.spread + rhs.spread

def numerators : Expr → Nat
  | .literal _ | .var _ => 0
  | .neg operand | .call _ operand => operand.numerators
  | .div lhs rhs => lhs.numerators + rhs.numerators + if lhs.isLiteral then 1 else 0
  | .binary _ lhs rhs => lhs.numerators + rhs.numerators

/-- How much is subtracted: a node counts once for every subtraction on whose right it
stands. Of two expressions with as many nodes, the lower one has more of it. -/
def subtracted : Expr → Nat
  | .literal _ | .var _ => 0
  | .neg operand | .call _ operand => operand.subtracted
  | .sub lhs rhs => lhs.subtracted + rhs.subtracted + rhs.size
  | .binary _ lhs rhs => lhs.subtracted + rhs.subtracted

/-- A node counts once for every sum or product on whose right it stands. -/
def trailing : Expr → Nat
  | .literal _ | .var _ => 0
  | .neg operand | .call _ operand => operand.trailing
  | .add lhs rhs | .mul lhs rhs => lhs.trailing + rhs.trailing + rhs.size
  | .binary _ lhs rhs => lhs.trailing + rhs.trailing

/-- The right side of a sum or a product counts more than the left side, but less than
the left side of the left side. -/
def drift : Expr → Nat
  | .literal _ => 0
  | .var _ => 1
  | .neg operand | .call _ operand => operand.drift + 1
  | .add lhs rhs | .mul lhs rhs => 2 * lhs.drift + 3 * rhs.drift + 1
  | .binary _ lhs rhs => lhs.drift + rhs.drift + 1

/-- The order of expressions in which every reduction goes down. Only what has operands
has anything below it. -/
def Lower (r e : Expr) : Prop :=
  2 ≤ e.size ∧
    (r.size < e.size ∨ r.size = e.size ∧
      (r.negatives < e.negatives ∨ r.negatives = e.negatives ∧
        (r.spread < e.spread ∨ r.spread = e.spread ∧
          (r.numerators < e.numerators ∨ r.numerators = e.numerators ∧
            (e.subtracted < r.subtracted ∨ e.subtracted = r.subtracted ∧
              (r.trailing < e.trailing ∨ r.trailing = e.trailing ∧ r.drift < e.drift))))))

theorem two_le_spread (e : Expr) : 2 ≤ e.spread := by
  induction e with
  | literal _ => exact Nat.le_refl 2
  | var _ => exact Nat.le_refl 2
  | neg operand ih => exact Nat.le_succ_of_le ih
  | call _ operand ih => exact ih
  | binary op lhs rhs ihl ihr =>
      have hproduct := Nat.mul_le_mul ihl ihr
      cases op <;> simp only [spread] <;> omega

theorem subtracted_le (e : Expr) : e.subtracted ≤ e.size * e.size := by
  induction e with
  | literal _ => simp [subtracted]
  | var _ => simp [subtracted]
  | neg operand ih =>
      have hmono := Nat.mul_le_mul (Nat.le_succ operand.size) (Nat.le_succ operand.size)
      exact Nat.le_trans ih hmono
  | call _ operand ih =>
      have hmono := Nat.mul_le_mul (Nat.le_succ operand.size) (Nat.le_succ operand.size)
      exact Nat.le_trans ih hmono
  | binary op lhs rhs ihl ihr =>
      have hsquare : (lhs.size + rhs.size + 1) * (lhs.size + rhs.size + 1) =
          lhs.size * lhs.size + rhs.size * rhs.size + 2 * (lhs.size * rhs.size) +
            2 * lhs.size + 2 * rhs.size + 1 := by
        grind
      cases op <;> simp only [subtracted, size, hsquare] <;> omega

theorem drift_pos {e : Expr} (other : e.isLiteral = false) : 0 < e.drift := by
  cases e with
  | literal _ => cases other
  | binary op _ _ => cases op <;> simp [drift]
  | _ => simp [drift]

/-- Beside a variable, only a literal has a single node, and a literal does not count. -/
theorem drift_eq_zero {e : Expr} (other : e.isVariable = false) (single : e.size = 1) :
    e.drift = 0 := by
  cases e with
  | literal _ => rfl
  | var _ => cases other
  | neg operand =>
      have hpos := operand.size_pos
      simp only [size] at single
      omega
  | call _ operand =>
      have hpos := operand.size_pos
      simp only [size] at single
      omega
  | binary _ lhs rhs =>
      have hpos := lhs.size_pos
      simp only [size] at single
      omega

theorem isLiteral_literal (value : Float) : (Expr.literal value).isLiteral = true := rfl

theorem isLiteral_binary (op : BinaryOp) (lhs rhs : Expr) :
    (Expr.binary op lhs rhs).isLiteral = false := rfl

theorem isLiteral_of_two_le_size {e : Expr} (h : 2 ≤ e.size) : e.isLiteral = false := by
  cases e with
  | literal _ => simp [size] at h
  | _ => rfl

theorem Lower.trans {a b c : Expr} (hab : Lower a b) (hbc : Lower b c) : Lower a c := by
  unfold Lower at *
  omega

theorem Lower.neg {r e : Expr} (h : Lower r e) : Lower (.neg r) (.neg e) := by
  simp only [Lower, size, negatives, spread, numerators, subtracted, trailing, drift] at *
  omega

theorem Lower.call {r e : Expr} (func : Func) (h : Lower r e) :
    Lower (.call func r) (.call func e) := by
  simp only [Lower, size, negatives, spread, numerators, subtracted, trailing, drift] at *
  omega

/-- In a product or a quotient, what a reduction does to the spread of one side it does
to the whole. -/
theorem spread_mul_right {r e : Expr} (other : Expr) :
    (r.spread < e.spread → r.spread * other.spread < e.spread * other.spread) ∧
      (r.spread = e.spread → r.spread * other.spread = e.spread * other.spread) := by
  have hpos : 0 < other.spread := Nat.lt_of_lt_of_le Nat.zero_lt_two other.two_le_spread
  exact ⟨fun hlt => Nat.mul_lt_mul_of_pos_right hlt hpos, fun heq => by rw [heq]⟩

theorem Lower.left {r e : Expr} (op : BinaryOp) (rhs : Expr) (h : Lower r e) :
    Lower (.binary op r rhs) (.binary op e rhs) := by
  obtain ⟨hless, hsame⟩ := spread_mul_right (r := r) (e := e) rhs
  cases op with
  | div =>
      by_cases hsize : r.size = e.size
      · have hr := isLiteral_of_two_le_size (hsize ▸ h.1)
        have he := isLiteral_of_two_le_size h.1
        simp only [Lower, size, negatives, spread, numerators, subtracted, trailing, drift, hr,
          he] at *
        omega
      · simp only [Lower, size] at *
        omega
  | _ =>
      simp only [Lower, size, negatives, spread, numerators, subtracted, trailing, drift] at *
      omega

theorem Lower.right {r e : Expr} (op : BinaryOp) (lhs : Expr) (h : Lower r e) :
    Lower (.binary op lhs r) (.binary op lhs e) := by
  obtain ⟨hless, hsame⟩ := spread_mul_right (r := r) (e := e) lhs
  rw [Nat.mul_comm r.spread, Nat.mul_comm e.spread] at hless hsame
  cases op <;>
    simp only [Lower, size, negatives, spread, numerators, subtracted, trailing, drift] at * <;>
    omega

theorem Lower.of_size_lt {r e : Expr} (h : r.size < e.size) : Lower r e := by
  have hpos := r.size_pos
  unfold Lower
  omega

/-- Turning a sign keeps the nodes and leaves one literal less below zero. -/
theorem Lower.of_turned_sign {op turned : BinaryOp} {a : Expr} {v : Float} (negative : v < 0) :
    Lower (.binary turned a (.literal (-v))) (.binary op a (.literal v)) := by
  have hpositive := Number.not_neg_lt_zero negative
  have hpos := a.size_pos
  simp only [Lower, size, negatives, if_pos negative, if_neg hpositive, true_and]
  omega

/-- A sign that leaves a product or a quotient leaves the spread of the other side
behind, which is two at least. -/
theorem Lower.of_sign_outside {a b c d : Expr} {op : BinaryOp}
    (hop : op = .mul ∨ op = .div)
    (hsides : c = .neg a ∧ d = b ∨ c = a ∧ d = .neg b) :
    Lower (.neg (.binary op a b)) (.binary op c d) := by
  have ha := a.two_le_spread
  have hb := b.two_le_spread
  have hpos := a.size_pos
  have hleft : (a.spread + 1) * b.spread = a.spread * b.spread + b.spread := Nat.succ_mul _ _
  have hright : a.spread * (b.spread + 1) = a.spread * b.spread + a.spread := Nat.mul_succ _ _
  rcases hop with rfl | rfl <;> rcases hsides with ⟨rfl, rfl⟩ | ⟨rfl, rfl⟩ <;>
    simp only [Lower, size, negatives, spread, true_and] <;> omega

/-- Every reduction goes down in the order. -/
theorem lower_of_reduces {step : Step} {e r : Expr} (h : Reduction.Reduces step e r) :
    Lower r e := by
  cases h with
  | foldConstants => exact .of_size_lt (by simp only [size]; omega)
  | foldFunction => exact .of_size_lt (by simp only [size]; omega)
  | negateZero => exact .of_size_lt (by simp only [size]; omega)
  | negateNumber => exact .of_size_lt (by simp only [size]; omega)
  | doubleNegation => exact .of_size_lt (by simp only [size]; omega)
  | addZeroRight => exact .of_size_lt (by simp only [size]; omega)
  | addZeroLeft => exact .of_size_lt (by simp only [size]; omega)
  | addNegation => exact .of_size_lt (by simp only [size]; omega)
  | addNegativeFirst => exact .of_size_lt (by simp only [size]; omega)
  | subtractZero => exact .of_size_lt (by simp only [size]; omega)
  | subtractFromZero => exact .of_size_lt (by simp only [size]; omega)
  | multiplyOneRight => exact .of_size_lt (by simp only [size]; omega)
  | multiplyOneLeft => exact .of_size_lt (by simp only [size]; omega)
  | multiplyZeroLeft => exact .of_size_lt (by simp only [size]; omega)
  | multiplyZeroRight => exact .of_size_lt (by simp only [size]; omega)
  | divideZero => exact .of_size_lt (by simp only [size]; omega)
  | divideOne => exact .of_size_lt (by simp only [size]; omega)
  | powerZeroLeft => exact .of_size_lt (by simp only [size]; omega)
  | powerOneLeft => exact .of_size_lt (by simp only [size]; omega)
  | powerZero => exact .of_size_lt (by simp only [size]; omega)
  | powerOne => exact .of_size_lt (by simp only [size]; omega)
  | addNegativeLiteral a v negative => exact .of_turned_sign negative
  | subtractNegative a v negative => exact .of_turned_sign negative
  | multiplyNegativeLeft a b => exact .of_sign_outside (.inl rfl) (.inl ⟨rfl, rfl⟩)
  | multiplyNegativeRight a b => exact .of_sign_outside (.inl rfl) (.inr ⟨rfl, rfl⟩)
  | divideNegativeTop a b => exact .of_sign_outside (.inr rfl) (.inl ⟨rfl, rfl⟩)
  | divideNegativeBottom a b => exact .of_sign_outside (.inr rfl) (.inr ⟨rfl, rfl⟩)
  | extractNumeratorLeft n d b other =>
      have hspread : 2 * (b.spread * d.spread) = 2 * d.spread * b.spread := by grind
      simp only [Lower, size, negatives, spread, numerators, other, isLiteral_literal, hspread,
        true_and, Bool.false_eq_true, ↓reduceIte]
      omega
  | mergeNumeratorLeft n d v =>
      have hspread : 2 * 2 * d.spread = 2 * d.spread * 2 := by grind
      simp only [Lower, size, negatives, spread, numerators, isLiteral_binary, isLiteral_literal,
        hspread, true_and, Bool.false_eq_true, ↓reduceIte]
      omega
  | extractNumeratorRight a n d other =>
      have hspread : 2 * (a.spread * d.spread) = a.spread * (2 * d.spread) := by grind
      simp only [Lower, size, negatives, spread, numerators, other, isLiteral_literal, hspread,
        true_and, Bool.false_eq_true, ↓reduceIte]
      omega
  | mergeNumeratorRight v n d =>
      have hspread : 2 * 2 * d.spread = 2 * (2 * d.spread) := by grind
      simp only [Lower, size, negatives, spread, numerators, isLiteral_binary, isLiteral_literal,
        hspread, true_and, Bool.false_eq_true, ↓reduceIte]
      omega
  | regroupDifferenceMinus a b c =>
      simp only [Lower, size, negatives, spread, numerators, subtracted]
      omega
  | regroupSumMinus a b c =>
      simp only [Lower, size, negatives, spread, numerators, subtracted]
      omega
  | regroupDifferencePlus a b c =>
      simp only [Lower, size, negatives, spread, numerators, subtracted, trailing, drift]
      omega
  | moveTermRight v b other =>
      have hdrift := drift_pos other
      have hsize := b.size_pos
      simp only [Lower, size, negatives, spread, numerators, subtracted, trailing, drift]
      omega
  | moveFactorRight v b other =>
      have hdrift := drift_pos other
      have hsize := b.size_pos
      have hspread : b.spread * 2 = 2 * b.spread := Nat.mul_comm _ _
      simp only [Lower, size, negatives, spread, numerators, subtracted, trailing, drift, hspread,
        true_and]
      omega
  | regroupVariableSum x a b other =>
      have hsize := b.size_pos
      have hdrift := drift_eq_zero (e := b) other
      simp only [Lower, size, negatives, spread, numerators, subtracted, trailing, drift]
      omega
  | regroupVariableProduct x a b other =>
      have hsize := b.size_pos
      have hdrift := drift_eq_zero (e := b) other
      have hspread : b.spread * a.spread * 2 = 2 * a.spread * b.spread := by grind
      simp only [Lower, size, negatives, spread, numerators, subtracted, trailing, drift, hspread,
        true_and]
      omega

/-- What goes down goes down wherever it stands. -/
theorem lower_of_inside {R : Expr → Expr → Prop} (hR : ∀ {e r : Expr}, R e r → Lower r e)
    {e r : Expr} (h : Inside R e r) : Lower r e := by
  induction h with
  | here h => exact hR h
  | neg _ ih => exact ih.neg
  | call func _ ih => exact ih.call func
  | left op rhs _ ih => exact ih.left op rhs
  | right op lhs _ ih => exact ih.right op lhs

def ranks (e : Expr) : Nat × Nat × Nat × Nat × Nat × Nat × Nat :=
  (e.size, e.negatives, e.spread, e.numerators, e.size * e.size - e.subtracted, e.trailing, e.drift)

/-- No chain of expressions goes down forever. What is subtracted has a bound that
depends on the number of nodes only, and that number is the same where it is compared. -/
theorem wellFounded_lower : WellFounded Lower := by
  apply Subrelation.wf (r := InvImage WellFoundedRelation.rel ranks)
  · intro r e h
    have hr := r.subtracted_le
    have he := e.subtracted_le
    simp only [InvImage, WellFoundedRelation.rel, Prod.lex_def, ranks, sizeOf_nat]
    obtain ⟨-, hsize | ⟨hsize, hrest⟩⟩ := h
    · exact .inl hsize
    · rw [hsize] at hr ⊢
      refine .inr ⟨rfl, ?_⟩
      omega
  · exact InvImage.wf ranks WellFoundedRelation.wf

end Formula.Expr
