import Formula.Expr.Size

/-!
The post-order walk over the nodes of an expression. It keeps the nodes still to be
visited and the place of the last visit; a node is due when it has no children or when
its last child is the one just visited. Nodes are told apart by place, never by what
they hold, so equal subexpressions are each visited.
-/

namespace Formula

/-- A node of an expression, with the child numbers that lead to it, innermost first. -/
structure Node where
  place : List Nat
  expr : Expr

namespace Node

def children (node : Node) : List Node :=
  match node.expr with
  | .literal _ | .var _ => []
  | .neg operand | .call _ operand => [⟨0 :: node.place, operand⟩]
  | .binary _ lhs rhs => [⟨0 :: node.place, lhs⟩, ⟨1 :: node.place, rhs⟩]

def isDue (node : Node) (last : Option (List Nat)) : Bool :=
  match node.children.getLast? with
  | none => true
  | some child => last == some child.place

/-- The turns that the pending nodes still take at most: a due node takes one, any
other two for each of its nodes. -/
def turns : List Node → Option (List Nat) → Nat
  | [], _ => 0
  | node :: pending, last =>
      (if node.isDue last then 1 else 2 * node.expr.size) + turns pending (some node.place)

theorem size_children (node : Node) :
    node.expr.size = Expr.totalSize (node.children.map (·.expr)) + 1 := by
  cases h : node.expr <;> simp [children, h, Expr.size, Expr.totalSize]

theorem turns_append_le (nodes pending : List Node) (last : Option (List Nat)) :
    turns (nodes ++ pending) last ≤ 2 * Expr.totalSize (nodes.map (·.expr)) +
      turns pending ((nodes.getLast?.map (·.place)).or last) := by
  induction nodes generalizing last with
  | nil => simp [Expr.totalSize]
  | cons node rest ih =>
      have ahead := ih (some node.place)
      have size : 0 < node.expr.size := node.expr.size_pos
      have next : (rest.getLast?.map (·.place)).or (some node.place) =
          (((node :: rest).getLast?.map (·.place)).or last) := by
        cases h : rest.getLast? <;> simp [List.getLast?_cons, h]
      simp only [List.cons_append, turns, List.map_cons, Expr.totalSize, ← next]
      split <;> omega

/-- Opening a node that is not due leaves fewer turns. -/
theorem turns_open (node : Node) (pending : List Node) (last : Option (List Nat))
    (waits : node.isDue last = false) :
    turns (node.children ++ node :: pending) last < turns (node :: pending) last := by
  have bound := turns_append_le node.children (node :: pending) last
  cases h : node.children.getLast? with
  | none => simp [isDue, h] at waits
  | some child =>
      have due : node.isDue (some child.place) = true := by simp [isDue, h]
      have size := node.size_children
      simp only [h, Option.map_some, Option.some_or, turns, due, ↓reduceIte] at bound
      simp only [turns, waits]
      simp
      omega

/-- The visits still to come, in order. -/
def visits : List Node → Option (List Nat) → List Node
  | [], _ => []
  | node :: pending, last =>
      if node.isDue last then node :: visits pending (some node.place)
      else visits (node.children ++ node :: pending) last
termination_by pending last => turns pending last
decreasing_by
  · rename_i due
    simp [turns, due]
  · rename_i waits
    exact turns_open node pending last (by simpa using waits)

end Node

namespace Expr

/-- The nodes of an expression, children before parents and left before right. -/
def nodes (e : Expr) : List Node := Node.visits [⟨[], e⟩] none

def nodeCount (e : Expr) : Nat := e.nodes.length

end Expr

end Formula
