import Formula.Expr.Basic

/-!
Evaluation in the arithmetic of numbers. An expression without variables comes to a number
if each operation is carried out on what its operands come to, rounding, infinities and all.
-/

namespace Formula.Expr

def evaluate? : Expr → Option Float
  | .literal value => some value
  | .var _ => none
  | .neg operand => operand.evaluate?.map (-·)
  | .binary op lhs rhs => lhs.evaluate?.bind fun a => rhs.evaluate?.map (op.apply a)
  | .call func operand => operand.evaluate?.map func.apply

variable {a b : Expr} {v : Float}

theorem evaluate?_literal_iff {value : Float} :
    (literal value).evaluate? = some v ↔ value = v := Option.some_inj

theorem evaluate?_var_iff {name : Char} : (var name).evaluate? = some v ↔ False := by
  simp [evaluate?]

theorem evaluate?_neg_iff : (neg a).evaluate? = some v ↔ ∃ x, a.evaluate? = some x ∧ -x = v :=
  Option.map_eq_some_iff

theorem evaluate?_call_iff {func : Func} :
    (call func a).evaluate? = some v ↔ ∃ x, a.evaluate? = some x ∧ func.apply x = v :=
  Option.map_eq_some_iff

theorem evaluate?_binary_iff {op : BinaryOp} :
    (binary op a b).evaluate? = some v ↔
      ∃ x, a.evaluate? = some x ∧ ∃ y, b.evaluate? = some y ∧ op.apply x y = v := by
  rw [evaluate?, Option.bind_eq_some_iff]
  simp only [Option.map_eq_some_iff]

end Formula.Expr
