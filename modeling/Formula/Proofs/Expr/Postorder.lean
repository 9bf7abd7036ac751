import Formula.Proofs.Expr.Inside
import Formula.Proofs.Expr.Walk

/-!
The walk visits every node once. What it does is said turn by turn, so that it is seen to
end; the nodes are told apart by their places, and a place is in the expression if child
numbers lead there from the root. Below a node comes before it, and what is below its left
child comes before what is below its right one. No place is before itself, so the order
alone says that none is visited twice.
-/

namespace Formula

def Expr.at? : List Nat → Expr → Option Expr
  | [], e => some e
  | i :: path, e => e.children[i]?.bind (at? path)

namespace Node

/-- From the pending nodes and the place of the last visit, the walk ends after so many
turns, and visits these nodes in them. -/
inductive Walks : List Node → Option (List Nat) → Nat → List Node → Prop
  | done {last : Option (List Nat)} : Walks [] last 0 []
  | visit {node : Node} {pending visited : List Node} {last : Option (List Nat)} {turns : Nat}
      (due : node.isDue last = true) (rest : Walks pending (some node.place) turns visited) :
      Walks (node :: pending) last (turns + 1) (node :: visited)
  | enter {node : Node} {pending visited : List Node} {last : Option (List Nat)} {turns : Nat}
      (waits : node.isDue last = false)
      (rest : Walks (node.children ++ node :: pending) last turns visited) :
      Walks (node :: pending) last (turns + 1) visited

theorem Walks.eq_visits {pending visited : List Node} {last : Option (List Nat)} {n : Nat}
    (h : Walks pending last n visited) : visited = visits pending last := by
  induction h with
  | done => rw [visits]
  | visit due rest ih => rw [visits, if_pos due, ih]
  | enter waits rest ih => rw [visits, waits, if_neg Bool.false_ne_true, ih]

/-- The walk ends, within the turns that the pending nodes take at most. -/
theorem exists_walks (pending : List Node) (last : Option (List Nat)) :
    ∃ n ≤ turns pending last, Walks pending last n (visits pending last) := by
  fun_induction visits pending last with
  | case1 last => exact ⟨0, Nat.le_refl 0, .done⟩
  | case2 node pending last due ih =>
      obtain ⟨n, hn, hrest⟩ := ih
      have hturns : turns (node :: pending) last = 1 + turns pending (some node.place) := by
        rw [turns, if_pos due]
      exact ⟨n + 1, by omega, .visit due hrest⟩
  | case3 node pending last waits ih =>
      obtain ⟨n, hn, hrest⟩ := ih
      have hwaits : node.isDue last = false := by simpa using waits
      have hfewer := turns_open node pending last hwaits
      exact ⟨n + 1, by omega, .enter hwaits hrest⟩

theorem turns_root_le (e : Expr) : turns [⟨[], e⟩] none ≤ 2 * e.size := by
  have hsize := e.size_pos
  simp only [turns]
  split <;> omega

def Under (place : List Nat) (e : Expr) (node : Node) : Prop :=
  ∃ path, node.place = path.reverse ++ place ∧ e.at? path = some node.expr

theorem under_of_mem_singleton {place : List Nat} {e : Expr} {node : Node}
    (h : node ∈ [Node.mk place e]) : Under place e node := by
  rw [List.mem_singleton.mp h]
  exact ⟨[], rfl, rfl⟩

theorem Under.of_child {place : List Nat} {e child : Expr} {node : Node} {i : Nat}
    (hchild : e.children[i]? = some child) (h : Under (i :: place) child node) :
    Under place e node := by
  obtain ⟨path, hplace, hat⟩ := h
  refine ⟨i :: path, ?_, Option.bind_eq_some_iff.mpr ⟨child, hchild, hat⟩⟩
  rw [hplace, List.reverse_cons, List.append_assoc, List.singleton_append]

theorem under_of_mem_listing {place : List Nat} {e : Expr} {node : Node}
    (h : node ∈ listing place e) : Under place e node := by
  induction e generalizing place with
  | literal value => exact under_of_mem_singleton h
  | var name => exact under_of_mem_singleton h
  | neg operand ih =>
      rcases List.mem_append.mp h with h | h
      · exact .of_child rfl (ih h)
      · exact under_of_mem_singleton h
  | call func operand ih =>
      rcases List.mem_append.mp h with h | h
      · exact .of_child rfl (ih h)
      · exact under_of_mem_singleton h
  | binary op lhs rhs ihl ihr =>
      rcases List.mem_append.mp h with h | h
      · rcases List.mem_append.mp h with h | h
        · exact .of_child rfl (ihl h)
        · exact .of_child rfl (ihr h)
      · exact under_of_mem_singleton h

theorem self_mem_listing (place : List Nat) (e : Expr) : ⟨place, e⟩ ∈ listing place e := by
  cases e <;> simp [listing]

theorem mem_listing_of_child {place : List Nat} {e child : Expr} {node : Node} {i : Nat}
    (hchild : e.children[i]? = some child) (h : node ∈ listing (i :: place) child) :
    node ∈ listing place e := by
  cases e with
  | literal value => cases hchild
  | var name => cases hchild
  | neg operand =>
      match i, hchild with
      | 0, hchild =>
          cases hchild
          exact List.mem_append_left _ h
  | call func operand =>
      match i, hchild with
      | 0, hchild =>
          cases hchild
          exact List.mem_append_left _ h
  | binary op lhs rhs =>
      match i, hchild with
      | 0, hchild =>
          cases hchild
          exact List.mem_append_left _ (List.mem_append_left _ h)
      | 1, hchild =>
          cases hchild
          exact List.mem_append_left _ (List.mem_append_right _ h)

/-- The nodes that are listed are those to which child numbers lead. -/
theorem mem_listing_iff (place : List Nat) (e : Expr) (node : Node) :
    node ∈ listing place e ↔ Under place e node := by
  constructor
  · exact under_of_mem_listing
  · rintro ⟨path, hplace, hat⟩
    induction path generalizing place e with
    | nil =>
        have hsame : node.place = place := hplace
        cases hat
        rw [← hsame]
        exact self_mem_listing node.place node.expr
    | cons i path ih =>
        obtain ⟨child, hchild, hat⟩ := Option.bind_eq_some_iff.mp hat
        refine mem_listing_of_child hchild (ih (i :: place) child ?_ hat)
        rw [hplace, List.reverse_cons, List.append_assoc, List.singleton_append]

/-- Of two places, the one is before the other if it is below it, or if it is in the left
part and the other in the right part of what is at some place. -/
def Precedes (a b : List Nat) : Prop :=
  (b <:+ a ∧ a ≠ b) ∨ ∃ place, 0 :: place <:+ a ∧ 1 :: place <:+ b

theorem not_precedes_self (a : List Nat) : ¬ Precedes a a := by
  rintro (⟨-, hne⟩ | ⟨place, hleft, hright⟩)
  · exact hne rfl
  · have hsame := List.suffix_of_suffix_length_le hleft hright (Nat.le_refl _)
    exact absurd (List.cons.inj (hsame.eq_of_length rfl)).1 (by decide)

theorem suffix_of_mem_listing {place : List Nat} {e : Expr} {node : Node}
    (h : node ∈ listing place e) : place <:+ node.place := by
  obtain ⟨path, hplace, -⟩ := under_of_mem_listing h
  exact ⟨path.reverse, hplace.symm⟩

theorem precedes_of_child {place : List Nat} {e : Expr} {node : Node} {i : Nat}
    (h : node ∈ listing (i :: place) e) : Precedes node.place place := by
  have hbelow := suffix_of_mem_listing h
  refine .inl ⟨(List.suffix_cons i place).trans hbelow, ?_⟩
  intro hsame
  have hlength := hbelow.length_le
  rw [hsame, List.length_cons] at hlength
  omega

theorem pairwise_concat {below : List Node} {place : List Nat} {e : Expr}
    (h : below.Pairwise fun a b => Precedes a.place b.place)
    (hbelow : ∀ node ∈ below, Precedes node.place place) :
    (below ++ [Node.mk place e]).Pairwise fun a b => Precedes a.place b.place := by
  refine List.pairwise_append.mpr ⟨h, List.pairwise_singleton _ _, ?_⟩
  intro a ha b hb
  rw [List.mem_singleton.mp hb]
  exact hbelow a ha

/-- The listing is in the order of the places. -/
theorem pairwise_listing (place : List Nat) (e : Expr) :
    (listing place e).Pairwise fun a b => Precedes a.place b.place := by
  induction e generalizing place with
  | literal value => exact List.pairwise_singleton _ _
  | var name => exact List.pairwise_singleton _ _
  | neg operand ih => exact pairwise_concat (ih _) fun _ => precedes_of_child
  | call func operand ih => exact pairwise_concat (ih _) fun _ => precedes_of_child
  | binary op lhs rhs ihl ihr =>
      have hsides : (listing (0 :: place) lhs ++ listing (1 :: place) rhs).Pairwise
          fun a b => Precedes a.place b.place := by
        refine List.pairwise_append.mpr ⟨ihl _, ihr _, ?_⟩
        intro a ha b hb
        exact .inr ⟨place, suffix_of_mem_listing ha, suffix_of_mem_listing hb⟩
      apply pairwise_concat hsides
      intro a ha
      rcases List.mem_append.mp ha with ha | ha
      · exact precedes_of_child ha
      · exact precedes_of_child ha

theorem map_expr_listing (place : List Nat) (e : Expr) :
    (listing place e).map (·.expr) = e.subexpressions := by
  induction e generalizing place with
  | literal value => rfl
  | var name => rfl
  | neg operand ih => simp [listing, Expr.subexpressions, ih]
  | call func operand ih => simp [listing, Expr.subexpressions, ih]
  | binary op lhs rhs ihl ihr => simp [listing, Expr.subexpressions, ihl, ihr]

end Node

/-- The walk from the root ends. It visits the nodes to which child numbers lead, and no
place twice; what is below a place comes before it, and what is in its left part before what
is in its right part. So it is the recursive listing of the subexpressions, as long as the
size says, and the depth that is found with a list of pending nodes is the height. -/
theorem Expr.walk_in_postorder (e : Expr) :
    (∃ turns ≤ 2 * e.size, Node.Walks [⟨[], e⟩] none turns e.nodes) ∧
      (∀ turns visited, Node.Walks [⟨[], e⟩] none turns visited → visited = e.nodes) ∧
      (∀ node, node ∈ e.nodes ↔ e.at? node.place.reverse = some node.expr) ∧
      (e.nodes.map (·.place)).Nodup ∧ (e.nodes.map (·.place)).Pairwise Node.Precedes ∧
      e.nodes.map (·.expr) = e.subexpressions ∧
      e.nodeCount = e.size ∧ e.depth = e.height := by
  have hends : ∃ turns ≤ 2 * e.size, Node.Walks [⟨[], e⟩] none turns e.nodes := by
    obtain ⟨turns, hturns, hwalks⟩ := Node.exists_walks [⟨[], e⟩] none
    exact ⟨turns, Nat.le_trans hturns (Node.turns_root_le e), hwalks⟩
  have hplaces : ∀ node, node ∈ e.nodes ↔ e.at? node.place.reverse = some node.expr := by
    intro node
    rw [nodes_eq_listing, Node.mem_listing_iff]
    constructor
    · rintro ⟨path, hplace, hat⟩
      rwa [hplace, List.append_nil, List.reverse_reverse]
    · intro hat
      exact ⟨node.place.reverse, by rw [List.reverse_reverse, List.append_nil], hat⟩
  have horder : (e.nodes.map (·.place)).Pairwise Node.Precedes := by
    rw [nodes_eq_listing]
    exact List.pairwise_map.mpr (Node.pairwise_listing [] e)
  have honce : (e.nodes.map (·.place)).Nodup := by
    refine horder.imp ?_
    rintro a b hbefore rfl
    exact Node.not_precedes_self a hbefore
  have hlisting : e.nodes.map (·.expr) = e.subexpressions := by
    rw [nodes_eq_listing]
    exact Node.map_expr_listing [] e
  exact ⟨hends, fun _ _ h => h.eq_visits, hplaces, honce, horder, hlisting, e.nodeCount_eq_size,
    e.depth_eq_height⟩

/-- Both sides of `(x + x) * (x + x)` are visited, though nothing tells them apart but their
places. -/
example :
    (Expr.mul (.add (.var 'x') (.var 'x')) (.add (.var 'x') (.var 'x'))).nodes.map (·.place) =
      [[0, 0], [1, 0], [0], [0, 1], [1, 1], [1], []] := by decide +kernel

end Formula
