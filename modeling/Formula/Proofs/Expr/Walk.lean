import Formula.Expr.Walk

/-!
The walk with an explicit list of pending nodes visits the nodes in the order in which
the recursion lists them. So the nodes are as many as the size says, and the depth found
with a list of pending nodes is the height.
-/

namespace Formula

namespace Node

def listing (place : List Nat) : Expr → List Node
  | .literal value => [⟨place, .literal value⟩]
  | .var name => [⟨place, .var name⟩]
  | .neg operand => listing (0 :: place) operand ++ [⟨place, .neg operand⟩]
  | .call func operand => listing (0 :: place) operand ++ [⟨place, .call func operand⟩]
  | .binary op lhs rhs =>
      listing (0 :: place) lhs ++ listing (1 :: place) rhs ++ [⟨place, .binary op lhs rhs⟩]

def Outside (place : List Nat) (last : Option (List Nat)) : Prop :=
  ∀ visited, last = some visited → ¬ place <:+ visited

theorem Outside.child {place : List Nat} {last : Option (List Nat)} (h : Outside place last)
    (i : Nat) : Outside (i :: place) last := by
  intro visited hlast hsuffix
  exact h visited hlast ((List.suffix_cons i place).trans hsuffix)

theorem Outside.ne_child {place : List Nat} {last : Option (List Nat)} (h : Outside place last)
    (i : Nat) : (last == some (i :: place)) = false := by
  rw [beq_eq_false_iff_ne]
  intro hlast
  exact h _ hlast (List.suffix_cons i place)

theorem outside_sibling {place : List Nat} {i j : Nat} (h : i ≠ j) :
    Outside (i :: place) (some (j :: place)) := by
  intro visited hlast hsuffix
  cases hlast
  have hsame := hsuffix.eq_of_length rfl
  exact h (List.cons.inj hsame).1

/-- A pending node is visited after the nodes below it, and nothing else comes between. -/
theorem visits_cons (e : Expr) (place : List Nat) (pending : List Node)
    (last : Option (List Nat)) (h : Outside place last) :
    visits (⟨place, e⟩ :: pending) last = listing place e ++ visits pending (some place) := by
  induction e generalizing place pending last with
  | literal value => rw [visits]; rfl
  | var name => rw [visits]; rfl
  | neg operand ih =>
      have hwaits : isDue ⟨place, .neg operand⟩ last = false := h.ne_child 0
      have hdue : isDue ⟨place, .neg operand⟩ (some (0 :: place)) = true := by
        simp [isDue, children]
      rw [visits, hwaits]
      simp only [Bool.false_eq_true, ↓reduceIte, children, List.cons_append, List.nil_append]
      rw [ih _ _ _ (h.child 0), visits, hdue]
      simp [listing]
  | call func operand ih =>
      have hwaits : isDue ⟨place, .call func operand⟩ last = false := h.ne_child 0
      have hdue : isDue ⟨place, .call func operand⟩ (some (0 :: place)) = true := by
        simp [isDue, children]
      rw [visits, hwaits]
      simp only [Bool.false_eq_true, ↓reduceIte, children, List.cons_append, List.nil_append]
      rw [ih _ _ _ (h.child 0), visits, hdue]
      simp [listing]
  | binary op lhs rhs ihl ihr =>
      have hwaits : isDue ⟨place, .binary op lhs rhs⟩ last = false := h.ne_child 1
      have hdue : isDue ⟨place, .binary op lhs rhs⟩ (some (1 :: place)) = true := by
        simp [isDue, children]
      rw [visits, hwaits]
      simp only [Bool.false_eq_true, ↓reduceIte, children, List.cons_append, List.nil_append]
      rw [ihl _ _ _ (h.child 0), ihr _ _ _ (outside_sibling (by decide)), visits, hdue]
      simp [listing]

theorem length_listing (e : Expr) (place : List Nat) : (listing place e).length = e.size := by
  induction e generalizing place with
  | literal value => rfl
  | var name => rfl
  | neg operand ih => simp [listing, Expr.size, ih]
  | call func operand ih => simp [listing, Expr.size, ih]
  | binary op lhs rhs ihl ihr => simp [listing, Expr.size, ihl, ihr, Nat.add_assoc]

end Node

namespace Expr

theorem nodes_eq_listing (e : Expr) : e.nodes = Node.listing [] e := by
  have houtside : Node.Outside [] none := by
    intro visited hlast
    cases hlast
  unfold nodes
  rw [Node.visits_cons e [] [] none houtside, Node.visits, List.append_nil]

theorem nodeCount_eq_size (e : Expr) : e.nodeCount = e.size := by
  rw [nodeCount, nodes_eq_listing, Node.length_listing]

theorem height_pos (e : Expr) : 0 < e.height := by
  cases e <;> simp [height]

theorem deepest_cons (e : Expr) (depth : Nat) (pending : List (Expr × Nat)) (greatest : Nat) :
    deepest ((e, depth) :: pending) greatest =
      deepest pending (max greatest (depth + e.height - 1)) := by
  induction e generalizing depth pending greatest with
  | literal _ => rw [deepest]; rfl
  | var _ => rw [deepest]; rfl
  | neg operand ih =>
      rw [deepest]
      simp only [children, List.map_cons, List.map_nil, List.cons_append, List.nil_append, ih]
      congr 1
      simp only [height]
      omega
  | call _ operand ih =>
      rw [deepest]
      simp only [children, List.map_cons, List.map_nil, List.cons_append, List.nil_append, ih]
      congr 1
      simp only [height]
      omega
  | binary _ lhs rhs ihl ihr =>
      rw [deepest]
      simp only [children, List.map_cons, List.map_nil, List.cons_append, List.nil_append, ihl, ihr]
      congr 1
      simp only [height]
      omega

theorem depth_eq_height (e : Expr) : e.depth = e.height := by
  have hpos := e.height_pos
  rw [depth, deepest_cons, deepest]
  omega

end Expr

end Formula
