import Formula.Expr.Basic

/-!
The place of literals: on the right of a sum or a product, and outside a fraction that
is a factor.
-/

namespace Formula.Reduction

def moveLiteralRight (op : BinaryOp) : Expr → Option Expr
  | .binary own a b =>
      if own = op ∧ a.isLiteral ∧ !b.isLiteral then some (.binary op b a) else none
  | _ => none

/-- `2 + a = a + 2`. -/
def moveTermRight : Expr → Option Expr := moveLiteralRight .add

/-- `2 * a = a * 2`. -/
def moveFactorRight : Expr → Option Expr := moveLiteralRight .mul

/-- The numerator and the denominator of a fraction with a literal numerator. -/
def literalFraction? : Expr → Option (Float × Expr)
  | .div (.literal n) d => some (n, d)
  | _ => none

/-- `(2 / a) * b = 2 * (b / a)`, `a * (2 / b) = 2 * (a / b)`. Two literals meet in the
numerator, `(2 / a) * 3 = (2 * 3) / a`: apart, the one on the left would be moved to the
right again. -/
def extractNumerator : Expr → Option Expr
  | .mul a b =>
      match literalFraction? a, literalFraction? b with
      | some (n, d), _ =>
          some (if b.isLiteral then .div (.mul (.literal n) b) d
            else .mul (.literal n) (.div b d))
      | none, some (n, d) =>
          some (if a.isLiteral then .div (.mul a (.literal n)) d
            else .mul (.literal n) (.div a d))
      | none, none => none
  | _ => none

end Formula.Reduction
