import Formula.Expr.Basic

/-!
Places inside an expression: its subexpressions, and the replacement of one of them.
-/

namespace Formula.Expr

/-- All subexpressions, operands before the whole and the left side first. An equal
subexpression at another place is listed again. -/
def subexpressions : Expr → List Expr
  | .literal value => [.literal value]
  | .var name => [.var name]
  | .neg operand => operand.subexpressions ++ [.neg operand]
  | .call func operand => operand.subexpressions ++ [.call func operand]
  | .binary op lhs rhs => lhs.subexpressions ++ rhs.subexpressions ++ [.binary op lhs rhs]

/-- One expression becomes another by the replacement of exactly one subexpression, by
one that stands in the given relation to it. -/
inductive Inside (R : Expr → Expr → Prop) : Expr → Expr → Prop
  | here {e r : Expr} (h : R e r) : Inside R e r
  | neg {e r : Expr} (h : Inside R e r) : Inside R (.neg e) (.neg r)
  | call {e r : Expr} (func : Func) (h : Inside R e r) : Inside R (.call func e) (.call func r)
  | left {e r : Expr} (op : BinaryOp) (rhs : Expr) (h : Inside R e r) :
      Inside R (.binary op e rhs) (.binary op r rhs)
  | right {e r : Expr} (op : BinaryOp) (lhs : Expr) (h : Inside R e r) :
      Inside R (.binary op lhs e) (.binary op lhs r)

end Formula.Expr
