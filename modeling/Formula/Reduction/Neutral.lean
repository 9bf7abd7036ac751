import Formula.Expr.Basic

/-!
Operands that leave the other operand as it is, or decide the result alone.
-/

namespace Formula.Reduction

/-- `a + 0 = a`, `0 + a = a`. -/
def addZero : Expr → Option Expr
  | .add a b => if b.isZero then some a else if a.isZero then some b else none
  | _ => none

/-- `a - 0 = a`. -/
def subtractZero : Expr → Option Expr
  | .sub a b => if b.isZero then some a else none
  | _ => none

/-- `0 - a = -a`. -/
def subtractFromZero : Expr → Option Expr
  | .sub a b => if a.isZero then some (.neg b) else none
  | _ => none

/-- `a * 1 = a`, `1 * a = a`. -/
def multiplyOne : Expr → Option Expr
  | .mul a b => if b.isOne then some a else if a.isOne then some b else none
  | _ => none

/-- `a * 0 = 0`, `0 * a = 0`. -/
def multiplyZero : Expr → Option Expr
  | .mul a b => if a.isZero || b.isZero then some (.literal 0) else none
  | _ => none

/-- `0 / a = 0`. -/
def divideZero : Expr → Option Expr
  | .div a _ => if a.isZero then some (.literal 0) else none
  | _ => none

/-- `a / 1 = a`. -/
def divideOne : Expr → Option Expr
  | .div a b => if b.isOne then some a else none
  | _ => none

/-- `0 ^ a = 0`. -/
def powerZeroLeft : Expr → Option Expr
  | .pow a _ => if a.isZero then some (.literal 0) else none
  | _ => none

/-- `1 ^ a = 1`. -/
def powerOneLeft : Expr → Option Expr
  | .pow a _ => if a.isOne then some (.literal 1) else none
  | _ => none

/-- `a ^ 0 = 1`. -/
def powerZero : Expr → Option Expr
  | .pow _ b => if b.isZero then some (.literal 1) else none
  | _ => none

/-- `a ^ 1 = a`. -/
def powerOne : Expr → Option Expr
  | .pow a b => if b.isOne then some a else none
  | _ => none

end Formula.Reduction
