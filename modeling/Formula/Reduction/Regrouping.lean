import Formula.Expr.Basic

/-!
Regrouping of chains, so that literals meet and can be folded: a variable moves to the
end of a sum or a product, and a chain of differences ends with one subtraction.
-/

namespace Formula.Reduction

/-- `(x + a) + b = (b + a) + x` and `(x * a) * b = (b * a) * x` for a variable `x`, unless
`b` is a variable too. -/
def regroupVariable : Expr → Option Expr
  | .add (.add x a) b =>
      if x.isVariable ∧ !b.isVariable then some (.add (.add b a) x) else none
  | .mul (.mul x a) b =>
      if x.isVariable ∧ !b.isVariable then some (.mul (.mul b a) x) else none
  | _ => none

/-- `(a - b) + c = (a + c) - b`, unless `a` and `b` are both literals. -/
def regroupDifferencePlus : Expr → Option Expr
  | .add (.sub a b) c =>
      if a.isLiteral ∧ b.isLiteral then none else some (.sub (.add a c) b)
  | _ => none

/-- `(a - b) - c = a - (b + c)`. -/
def regroupDifferenceMinus : Expr → Option Expr
  | .sub (.sub a b) c => some (.sub a (.add b c))
  | _ => none

/-- `(a + b) - c = a - (c - b)`, unless `a` and `b` are both literals. -/
def regroupSumMinus : Expr → Option Expr
  | .sub (.add a b) c =>
      if a.isLiteral ∧ b.isLiteral then none else some (.sub a (.sub c b))
  | _ => none

end Formula.Reduction
