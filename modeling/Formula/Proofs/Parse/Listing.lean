import Formula.Proofs.Parse.Postfix

/-!
Trees and their listings. A node without its operands is a label, and so is what a token
stands for on its own. A tree is built from tokens exactly if their labels are those of
its nodes, children before parents, and if it is no deeper than the limit. What carries
this is the stack: at any moment the operands on it, from the bottom up, list the tokens
that have been read, and each knows its height.
-/

namespace Formula

inductive Label where
  | literal (value : Float)
  | var (name : Char)
  | neg
  | binary (op : BinaryOp)
  | call (func : Func)
deriving DecidableEq

namespace Expr

def label : Expr → Label
  | .literal value => .literal value
  | .var name => .var name
  | .neg _ => .neg
  | .binary op _ _ => .binary op
  | .call func _ => .call func

def labels : Expr → List Label
  | .literal value => [.literal value]
  | .var name => [.var name]
  | .neg operand => operand.labels ++ [.neg]
  | .call func operand => operand.labels ++ [.call func]
  | .binary op lhs rhs => lhs.labels ++ rhs.labels ++ [.binary op]

end Expr

/-- A letter stands for the variable of the small letter. A parenthesis stands for no
node, and neither does a numeral that cannot be read. -/
def Token.label? (token : Token) : Option Label :=
  match token.kind with
  | .number => (Number.read? token.lexeme).map .literal
  | .letter => some (.var (token.lexeme.headD '\x00').toLower)
  | .binary op => some (.binary op)
  | .neg => some .neg
  | .func func => some (.call func)
  | .leftParen | .rightParen => none

theorem Node.labels_listing (e : Expr) (place : List Nat) :
    (listing place e).map (·.expr.label) = e.labels := by
  induction e generalizing place with
  | literal value => rfl
  | var name => rfl
  | neg operand ih =>
      rw [listing, List.map_append, ih]
      rfl
  | call func operand ih =>
      rw [listing, List.map_append, ih]
      rfl
  | binary op lhs rhs ihl ihr =>
      rw [listing, List.map_append, List.map_append, ihl, ihr]
      rfl

theorem Expr.labels_nodes (e : Expr) : e.nodes.map (·.expr.label) = e.labels := by
  rw [Expr.nodes_eq_listing, Node.labels_listing]

section Labels

variable {token : Token}

theorem Token.label?_eq_literal {value : Float} (h : token.label? = some (.literal value)) :
    token.kind = .number ∧ Number.read? token.lexeme = some value := by
  cases hkind : token.kind <;> simp_all [Token.label?]

theorem Token.label?_eq_var {name : Char} (h : token.label? = some (.var name)) :
    token.kind = .letter ∧ (token.lexeme.headD '\x00').toLower = name := by
  cases hkind : token.kind <;> simp_all [Token.label?]

theorem Token.label?_eq_neg (h : token.label? = some .neg) : token.kind = .neg := by
  cases hkind : token.kind <;> simp_all [Token.label?]

theorem Token.label?_eq_binary {op : BinaryOp} (h : token.label? = some (.binary op)) :
    token.kind = .binary op := by
  cases hkind : token.kind <;> simp_all [Token.label?]

theorem Token.label?_eq_call {func : Func} (h : token.label? = some (.call func)) :
    token.kind = .func func := by
  cases hkind : token.kind <;> simp_all [Token.label?]

end Labels

theorem Postfix.labels_eq {rpn : List Token} {e : Expr} (h : Postfix rpn e) :
    rpn.map Token.label? = e.labels.map some := by
  induction h with
  | number kind read => simp [Token.label?, kind, read, Expr.labels]
  | letter kind => simp [Token.label?, kind, Expr.labels, Expr.ofLetter]
  | neg kind operand ih => simp [Token.label?, kind, Expr.labels, ih]
  | call kind operand ih => simp [Token.label?, kind, Expr.labels, ih]
  | binary kind lhs rhs ihl ihr => simp [Token.label?, kind, Expr.labels, ihl, ihr]

theorem postfix_of_labels {rpn : List Token} {e : Expr}
    (h : rpn.map Token.label? = e.labels.map some) : Postfix rpn e := by
  induction e generalizing rpn with
  | literal value =>
      obtain ⟨token, rfl, hlabel⟩ := List.map_eq_singleton_iff.mp h
      obtain ⟨kind, read⟩ := Token.label?_eq_literal hlabel
      exact .number kind read
  | var name =>
      obtain ⟨token, rfl, hlabel⟩ := List.map_eq_singleton_iff.mp h
      obtain ⟨kind, rfl⟩ := Token.label?_eq_var hlabel
      exact .letter kind
  | neg operand ih =>
      rw [Expr.labels, List.map_append] at h
      obtain ⟨before, last, rfl, hbefore, hlast⟩ := List.map_eq_append_iff.mp h
      obtain ⟨token, rfl, hlabel⟩ := List.map_eq_singleton_iff.mp hlast
      exact .neg (Token.label?_eq_neg hlabel) (ih hbefore)
  | call func operand ih =>
      rw [Expr.labels, List.map_append] at h
      obtain ⟨before, last, rfl, hbefore, hlast⟩ := List.map_eq_append_iff.mp h
      obtain ⟨token, rfl, hlabel⟩ := List.map_eq_singleton_iff.mp hlast
      exact .call (Token.label?_eq_call hlabel) (ih hbefore)
  | binary op lhs rhs ihl ihr =>
      rw [Expr.labels, List.map_append, List.map_append] at h
      obtain ⟨before, last, rfl, hbefore, hlast⟩ := List.map_eq_append_iff.mp h
      obtain ⟨left, right, rfl, hleft, hright⟩ := List.map_eq_append_iff.mp hbefore
      obtain ⟨token, rfl, hlabel⟩ := List.map_eq_singleton_iff.mp hlast
      exact .binary (Token.label?_eq_binary hlabel) (ihl hleft) (ihr hright)

/-- Tokens list a tree exactly if their labels are those of its nodes in post-order. -/
theorem postfix_iff_labels {rpn : List Token} {e : Expr} :
    Postfix rpn e ↔ rpn.map Token.label? = e.nodes.map fun node => some node.expr.label := by
  have hnodes : (e.nodes.map fun node => some node.expr.label) = e.labels.map some := by
    rw [← Expr.labels_nodes, List.map_map]
    rfl
  rw [hnodes]
  exact ⟨Postfix.labels_eq, postfix_of_labels⟩

namespace Operand

variable {limit : Nat}

/-- The operands of a stack, from the bottom up, list the tokens, and none is higher than
the limit. -/
inductive Covers (limit : Nat) : List Token → List Operand → Prop
  | empty : Covers limit [] []
  | push {before rpn : List Token} {stack : List Operand} {operand : Operand}
      (below : Covers limit before stack) (lists : Postfix rpn operand.expr)
      (height : operand.height = operand.expr.height) (fits : operand.height ≤ limit) :
      Covers limit (before ++ rpn) (operand :: stack)

theorem pushWithin_eq_ok {token : Token} {operand : Operand} {stack next : List Operand}
    (h : pushWithin limit token operand stack = .ok next) :
    operand.height ≤ limit ∧ operand :: stack = next := by
  unfold pushWithin at h
  split at h
  · cases h
  · rename_i hfits
    cases h
    exact ⟨Nat.le_of_not_lt hfits, rfl⟩

theorem Covers.push_leaf {done : List Token} {stack next : List Operand} {token : Token}
    {e : Expr} (below : Covers limit done stack) (lists : Postfix [token] e)
    (height : e.height = 1) (h : pushWithin limit token (leaf token e) stack = .ok next) :
    Covers limit (done ++ [token]) next := by
  obtain ⟨hfits, rfl⟩ := pushWithin_eq_ok h
  exact .push below lists height.symm hfits

/-- An operation on the operand on top takes its place and lists one token more. -/
theorem Covers.push_unary {done : List Token} {stack next : List Operand} {operand : Operand}
    {token : Token} {build : Expr → Expr} (h : Covers limit done (operand :: stack))
    (lists : ∀ rpn, Postfix rpn operand.expr → Postfix (rpn ++ [token]) (build operand.expr))
    (height : (build operand.expr).height = operand.expr.height + 1)
    (hpush : pushWithin limit token (unary token build operand) stack = .ok next) :
    Covers limit (done ++ [token]) next := by
  obtain ⟨hfits, rfl⟩ := pushWithin_eq_ok hpush
  cases h with
  | push below hlists hheight _ =>
      rw [List.append_assoc]
      refine .push below (lists _ hlists) ?_ hfits
      simp only [unary, height, hheight]

/-- The right operand of an operator lists the last tokens and the left one those before
them. -/
theorem Covers.push_binary {done : List Token} {stack next : List Operand} {lhs rhs : Operand}
    {token : Token} {op : BinaryOp} (h : Covers limit done (rhs :: lhs :: stack))
    (kind : token.kind = .binary op)
    (hpush : pushWithin limit token (binary token op lhs rhs) stack = .ok next) :
    Covers limit (done ++ [token]) next := by
  obtain ⟨hfits, rfl⟩ := pushWithin_eq_ok hpush
  cases h with
  | push hleft right rightHeight _ =>
      cases hleft with
      -- The listing of the left operand stands between what is below and that of the right.
      | @push before leftRpn _ _ below left leftHeight _ =>
          rw [List.append_assoc, List.append_assoc, ← List.append_assoc leftRpn]
          refine .push below (.binary kind left right) ?_ hfits
          simp only [binary, Expr.height, leftHeight, rightHeight]

/-- A token that is taken is listed after those before it. -/
theorem Covers.reduce {done : List Token} {stack next : List Operand} {token : Token}
    (h : Covers limit done stack) (hreduce : reduce limit stack token = .ok next) :
    Covers limit (done ++ [token]) next := by
  unfold Operand.reduce at hreduce
  split at hreduce
  · rename_i kind
    split at hreduce
    · rename_i value read
      exact h.push_leaf (.number kind read) rfl hreduce
    · cases hreduce
  · rename_i kind
    exact h.push_leaf (.letter kind) rfl hreduce
  · rename_i operand rest kind
    exact h.push_unary (fun rpn => .neg kind) rfl hreduce
  · rename_i func operand rest kind
    exact h.push_unary (fun rpn => .call kind) rfl hreduce
  · rename_i op rhs lhs rest kind
    exact h.push_binary kind hreduce
  all_goals cases hreduce

theorem Covers.foldlM_reduce {done rpn : List Token} {stack final : List Operand}
    (h : Covers limit done stack) (hfold : rpn.foldlM (Operand.reduce limit) stack = .ok final) :
    Covers limit (done ++ rpn) final := by
  induction rpn generalizing done stack with
  | nil =>
      cases hfold
      rwa [List.append_nil]
  | cons token rest ih =>
      rw [List.foldlM_cons] at hfold
      cases hstep : Operand.reduce limit stack token with
      | error error =>
          rw [hstep] at hfold
          cases hfold
      | ok next =>
          rw [hstep] at hfold
          have hrest := ih (h.reduce hstep) hfold
          rwa [List.append_assoc] at hrest

theorem Covers.singleton {rpn : List Token} {operand : Operand} (h : Covers limit rpn [operand]) :
    Postfix rpn operand.expr ∧ operand.expr.height ≤ limit := by
  cases h with
  | push below lists height fits =>
      cases below
      exact ⟨lists, height ▸ fits⟩

theorem result_eq_ok {stack : List Operand} {e : Expr} (h : result stack = .ok e) :
    ∃ operand, stack = [operand] ∧ operand.expr = e := by
  unfold result at h
  split at h
  · cases h
  · rename_i operand
    cases h
    exact ⟨operand, rfl, rfl⟩
  · cases h

end Operand

theorem Expr.postfix_of_ofRpn {limit : Nat} {rpn : List Token} {e : Expr}
    (h : Expr.ofRpn limit rpn = .ok e) : Postfix rpn e ∧ e.height ≤ limit := by
  unfold Expr.ofRpn at h
  cases hfold : rpn.foldlM (Operand.reduce limit) [] with
  | error error =>
      rw [hfold] at h
      cases h
  | ok stack =>
      rw [hfold] at h
      obtain ⟨operand, rfl, rfl⟩ := Operand.result_eq_ok h
      exact (Operand.Covers.empty.foldlM_reduce hfold).singleton

/-- Building a tree is the inverse of listing its nodes in post-order: an expression is
built from tokens exactly if it is no deeper than the limit and the tokens, each read on
its own, are its nodes. -/
theorem Expr.ofRpn_eq_ok_iff (limit : Nat) (rpn : List Token) (e : Expr) :
    Expr.ofRpn limit rpn = .ok e ↔
      e.depth ≤ limit ∧
        rpn.map Token.label? = e.nodes.map fun node => some node.expr.label := by
  rw [← postfix_iff_labels]
  constructor
  · intro h
    obtain ⟨hlists, hheight⟩ := Expr.postfix_of_ofRpn h
    rw [Expr.depth_eq_height]
    exact ⟨hheight, hlists⟩
  · rintro ⟨hfits, hlists⟩
    exact (Expr.ofRpn_of_postfix hlists limit).1 hfits

end Formula
