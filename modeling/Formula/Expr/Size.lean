import Formula.Expr.Basic

/-!
The number of nodes and the height of an expression. The height is also found with an
explicit list of pending nodes, which needs no stack however deep the expression is.
-/

namespace Formula.Expr

def size : Expr → Nat
  | .literal _ | .var _ => 1
  | .neg operand | .call _ operand => operand.size + 1
  | .binary _ lhs rhs => lhs.size + rhs.size + 1

/-- A leaf has height 1. -/
def height : Expr → Nat
  | .literal _ | .var _ => 1
  | .neg operand | .call _ operand => operand.height + 1
  | .binary _ lhs rhs => max lhs.height rhs.height + 1

/-- The number of nodes of several expressions together. -/
def totalSize : List Expr → Nat
  | [] => 0
  | e :: rest => e.size + totalSize rest

theorem totalSize_append (first second : List Expr) :
    totalSize (first ++ second) = totalSize first + totalSize second := by
  induction first with
  | nil => simp [totalSize]
  | cons e rest ih => simp [totalSize, ih, Nat.add_assoc]

theorem size_eq_children (e : Expr) : e.size = totalSize e.children + 1 := by
  cases e <;> simp [size, totalSize, children]

theorem size_pos (e : Expr) : 0 < e.size := by
  cases e <;> simp [size]

/-- The greatest depth among pending nodes and what lies below them. -/
def deepest : List (Expr × Nat) → Nat → Nat
  | [], greatest => greatest
  | (e, depth) :: pending, greatest =>
      deepest (e.children.map (·, depth + 1) ++ pending) (max greatest depth)
termination_by pending => totalSize (pending.map (·.1))
decreasing_by
  have below : (e.children.map (·, depth + 1)).map (·.1) = e.children := by
    rw [List.map_map]; exact List.map_id _
  rw [List.map_append, totalSize_append, below, List.map_cons, totalSize, size_eq_children e]
  omega

def depth (e : Expr) : Nat := deepest [(e, 1)] 0

end Formula.Expr
