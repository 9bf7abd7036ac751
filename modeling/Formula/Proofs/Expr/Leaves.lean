import Formula.Proofs.Number.Sameness
import Formula.Expr.Size

/-!
Other labels at the leaves of an expression. The shape stays what it is, and so do the
marks of the leaves, if the map on literals keeps them. Two expressions count as the same
if this makes one expression of them, namely when negative zero is taken for zero at each
leaf; so being the same is an equivalence, and whatever does not see the sign of a zero
agrees on expressions that are the same.
-/

namespace Formula.Expr

def mapLeaves (value : Float → Float) (name : Char → Char) : Expr → Expr
  | .literal v => .literal (value v)
  | .var x => .var (name x)
  | .neg operand => .neg (operand.mapLeaves value name)
  | .call func operand => .call func (operand.mapLeaves value name)
  | .binary op lhs rhs => .binary op (lhs.mapLeaves value name) (rhs.mapLeaves value name)

section Leaves

variable {value : Float → Float} {name : Char → Char} (e : Expr)

theorem size_mapLeaves : (e.mapLeaves value name).size = e.size := by
  induction e with
  | literal v => rfl
  | var x => rfl
  | neg operand ih => rw [mapLeaves, size, size, ih]
  | call func operand ih => rw [mapLeaves, size, size, ih]
  | binary op lhs rhs ihl ihr => rw [mapLeaves, size, size, ihl, ihr]

@[simp] theorem isLiteral_mapLeaves : (e.mapLeaves value name).isLiteral = e.isLiteral := by
  cases e <;> rfl

@[simp] theorem isVariable_mapLeaves : (e.mapLeaves value name).isVariable = e.isVariable := by
  cases e <;> rfl

variable (keeps : Number.KeepsMarks value)
include keeps

theorem isZero_mapLeaves : (e.mapLeaves value name).isZero = e.isZero := by
  cases e with
  | literal v => exact keeps.beq_zero v
  | _ => rfl

theorem isOne_mapLeaves : (e.mapLeaves value name).isOne = e.isOne := by
  cases e with
  | literal v => exact keeps.beq_one v
  | _ => rfl

end Leaves

def plain (e : Expr) : Expr := e.mapLeaves Number.plainZero id

theorem same_iff (a b : Expr) : a.same b = true ↔ a.plain = b.plain := by
  unfold plain
  induction a generalizing b with
  | literal v => cases b <;> simp [same, mapLeaves, Number.same_iff]
  | var x => cases b <;> simp [same, mapLeaves]
  | neg operand ih => cases b <;> simp [same, mapLeaves, ih]
  | call func operand ih => cases b <;> simp [same, mapLeaves, ih]
  | binary op lhs rhs ihl ihr => cases b <;> simp [same, mapLeaves, ihl, ihr, and_assoc]

theorem same_refl (e : Expr) : e.same e = true := (same_iff e e).mpr rfl

end Formula.Expr
