import Formula.Expr.Basic

/-!
Signs. A sign inside a sum turns addition into subtraction or back, a sign inside a
product or a quotient moves out of it, and two signs cancel.
-/

namespace Formula.Reduction

/-- `--a = a`. -/
def doubleNegation : Expr → Option Expr
  | .neg (.neg a) => some a
  | _ => none

/-- `a + (-2) = a - 2`, `a + (-b) = a - b`. -/
def addNegative : Expr → Option Expr
  | .add a (.literal v) => if v < 0 then some (.sub a (.literal (-v))) else none
  | .add a (.neg b) => some (.sub a b)
  | _ => none

/-- `(-a) + b = b - a`. -/
def addNegativeFirst : Expr → Option Expr
  | .add (.neg a) b => some (.sub b a)
  | _ => none

/-- `a - (-2) = a + 2`. -/
def subtractNegative : Expr → Option Expr
  | .sub a (.literal v) => if v < 0 then some (.add a (.literal (-v))) else none
  | _ => none

/-- `(-a) * b = -(a * b)`, `a * (-b) = -(a * b)`. -/
def multiplyNegative : Expr → Option Expr
  | .mul (.neg a) b => some (.neg (.mul a b))
  | .mul a (.neg b) => some (.neg (.mul a b))
  | _ => none

/-- `(-a) / b = -(a / b)`, `a / (-b) = -(a / b)`. -/
def divideNegative : Expr → Option Expr
  | .div (.neg a) b => some (.neg (.div a b))
  | .div a (.neg b) => some (.neg (.div a b))
  | _ => none

end Formula.Reduction
