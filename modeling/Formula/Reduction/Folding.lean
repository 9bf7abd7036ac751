import Formula.Expr.Basic

/-!
Evaluation of operations on literals. Division by zero and the logarithm of a negative
number give what the arithmetic of numbers gives, which is a literal like any other.
-/

namespace Formula.Reduction

/-- `2 + 3 = 5`, `2 ^ 10 = 1024`, `1 / 0 = inf`. -/
def foldConstants : Expr → Option Expr
  | .binary op (.literal a) (.literal b) => some (.literal (op.apply a b))
  | _ => none

/-- `sin(0) = 0`, `exp(0) = 1`. -/
def foldFunction : Expr → Option Expr
  | .call func (.literal a) => some (.literal (func.apply a))
  | _ => none

/-- `-(2) = -2`; the negation of either zero is zero without a sign. -/
def negateNumber : Expr → Option Expr
  | .neg (.literal a) => some (.literal (if a == 0 then 0 else -a))
  | _ => none

end Formula.Reduction
