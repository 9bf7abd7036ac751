import Formula.Parse.Tree
import Formula.Proofs.Expr.Walk

/-!
Reverse Polish notation and trees. Tokens in which every operation follows its operands
leave one operand more on the stack, the tree that they list, and go no further down
than the operands they have put there themselves. The height of the operand is that of
its tree, so the limit is exceeded exactly if the tree is too high.
-/

namespace Formula

/-- `Postfix rpn e`: the tokens list the nodes of `e`, each after its operands. -/
inductive Postfix : List Token → Expr → Prop
  | number {token : Token} {value : Float} (kind : token.kind = .number)
      (read : Number.read? token.lexeme = some value) : Postfix [token] (.literal value)
  | letter {token : Token} (kind : token.kind = .letter) :
      Postfix [token] (.ofLetter (token.lexeme.headD '\x00'))
  | neg {rpn : List Token} {token : Token} {e : Expr} (kind : token.kind = .neg)
      (operand : Postfix rpn e) : Postfix (rpn ++ [token]) (.neg e)
  | call {rpn : List Token} {token : Token} {e : Expr} {func : Func}
      (kind : token.kind = .func func) (operand : Postfix rpn e) :
      Postfix (rpn ++ [token]) (.call func e)
  | binary {left right : List Token} {token : Token} {a b : Expr} {op : BinaryOp}
      (kind : token.kind = .binary op) (lhs : Postfix left a) (rhs : Postfix right b) :
      Postfix (left ++ right ++ [token]) (.binary op a b)

namespace Operand

variable (limit : Nat)

/-- What a tree comes to on a stack: one operand more, with the height of the tree, or
the error of some token if the tree is too high. -/
def Leaves (tokens : List Token) (stack : List Operand) (e : Expr)
    (outcome : Except ParseError (List Operand)) : Prop :=
  (∃ span, e.height ≤ limit ∧ outcome = .ok (⟨e, span, e.height⟩ :: stack)) ∨
    ∃ token ∈ tokens, limit < e.height ∧
      outcome = .error (.at token (.recursionLimitExceeded limit))

theorem leaves_pushWithin {tokens : List Token} (stack : List Operand) {token : Token} {e : Expr}
    (span : Span) (member : token ∈ tokens) :
    Leaves limit tokens stack e (pushWithin limit token ⟨e, span, e.height⟩ stack) := by
  unfold pushWithin
  split
  · rename_i hhigh
    exact .inr ⟨token, member, hhigh, rfl⟩
  · rename_i hfits
    exact .inl ⟨span, Nat.le_of_not_lt hfits, rfl⟩

section Tokens

variable (stack : List Operand) {token : Token}

theorem reduce_number {value : Float} (kind : token.kind = .number)
    (read : Number.read? token.lexeme = some value) :
    reduce limit stack token = pushWithin limit token (leaf token (.literal value)) stack := by
  unfold reduce
  rw [kind]
  simp only [read]

theorem reduce_letter (kind : token.kind = .letter) :
    reduce limit stack token =
      pushWithin limit token (leaf token (.ofLetter (token.lexeme.headD '\x00'))) stack := by
  unfold reduce
  rw [kind]

theorem reduce_neg (operand : Operand) (kind : token.kind = .neg) :
    reduce limit (operand :: stack) token =
      pushWithin limit token (unary token .neg operand) stack := by
  unfold reduce
  rw [kind]

theorem reduce_call (operand : Operand) {func : Func} (kind : token.kind = .func func) :
    reduce limit (operand :: stack) token =
      pushWithin limit token (unary token (.call func) operand) stack := by
  unfold reduce
  rw [kind]

theorem reduce_binary (lhs rhs : Operand) {op : BinaryOp} (kind : token.kind = .binary op) :
    reduce limit (rhs :: lhs :: stack) token =
      pushWithin limit token (binary token op lhs rhs) stack := by
  unfold reduce
  rw [kind]

end Tokens

theorem foldlM_reduce_concat (rpn : List Token) (token : Token) (stack : List Operand) :
    (rpn ++ [token]).foldlM (reduce limit) stack =
      rpn.foldlM (reduce limit) stack >>= fun below => reduce limit below token := by
  rw [List.foldlM_append]
  simp only [List.foldlM_cons, List.foldlM_nil, bind_pure]

/-- An operation on one operand, after what its operand comes to. -/
theorem leaves_unary {rpn : List Token} {token : Token} {e built : Expr} {stack : List Operand}
    (hoperand : Leaves limit rpn stack e (rpn.foldlM (reduce limit) stack))
    (height : built.height = e.height + 1)
    (hreduce : ∀ span, ∃ cover, reduce limit (⟨e, span, e.height⟩ :: stack) token =
      pushWithin limit token ⟨built, cover, built.height⟩ stack) :
    Leaves limit (rpn ++ [token]) stack built
      ((rpn ++ [token]).foldlM (reduce limit) stack) := by
  rw [foldlM_reduce_concat]
  rcases hoperand with ⟨span, -, hfold⟩ | ⟨bad, member, hhigh, hfold⟩
  · obtain ⟨cover, hpush⟩ := hreduce span
    rw [hfold]
    change Leaves limit _ _ _ (reduce limit (⟨e, span, e.height⟩ :: stack) token)
    rw [hpush]
    exact leaves_pushWithin limit stack cover (List.mem_append_right _ List.mem_cons_self)
  · rw [hfold]
    exact .inr ⟨bad, List.mem_append_left _ member, by omega, rfl⟩

/-- Tokens in reverse Polish notation leave the tree that they list, or exceed the limit
if it is too high. -/
theorem leaves_of_postfix {rpn : List Token} {e : Expr} (h : Postfix rpn e)
    (stack : List Operand) : Leaves limit rpn stack e (rpn.foldlM (reduce limit) stack) := by
  induction h generalizing stack with
  | @number token value kind read =>
      rw [List.foldlM_cons, reduce_number limit stack kind read]
      simp only [List.foldlM_nil, bind_pure]
      exact leaves_pushWithin limit stack token.span List.mem_cons_self
  | @letter token kind =>
      rw [List.foldlM_cons, reduce_letter limit stack kind]
      simp only [List.foldlM_nil, bind_pure]
      exact leaves_pushWithin limit stack token.span List.mem_cons_self
  | neg kind operand ih =>
      exact leaves_unary limit (ih stack) rfl fun span => ⟨_, reduce_neg limit stack _ kind⟩
  | call kind operand ih =>
      exact leaves_unary limit (ih stack) rfl fun span => ⟨_, reduce_call limit stack _ kind⟩
  | @binary left right token a b op kind lhs rhs ihl ihr =>
      have height : (Expr.binary op a b).height = max a.height b.height + 1 := rfl
      rw [foldlM_reduce_concat, List.foldlM_append]
      rcases ihl stack with ⟨leftSpan, -, hleft⟩ | ⟨bad, member, hhigh, hleft⟩
      · rw [hleft]
        change Leaves limit _ _ _
          (right.foldlM (reduce limit) (⟨a, leftSpan, a.height⟩ :: stack) >>= _)
        rcases ihr (⟨a, leftSpan, a.height⟩ :: stack) with
          ⟨rightSpan, -, hright⟩ | ⟨bad, member, hhigh, hright⟩
        · rw [hright]
          change Leaves limit _ _ _ (reduce limit
            (⟨b, rightSpan, b.height⟩ :: ⟨a, leftSpan, a.height⟩ :: stack) token)
          rw [reduce_binary limit stack _ _ kind]
          exact leaves_pushWithin limit stack _ (List.mem_append_right _ List.mem_cons_self)
        · rw [hright]
          exact .inr ⟨bad, by simp [member], by omega, rfl⟩
      · rw [hleft]
        exact .inr ⟨bad, by simp [member], by omega, rfl⟩

end Operand

/-- The tree that is built is the one that the tokens list, unless it is too deep; then
some token is reported, with the limit. -/
theorem Expr.ofRpn_of_postfix {rpn : List Token} {e : Expr} (h : Postfix rpn e) (limit : Nat) :
    (e.depth ≤ limit → Expr.ofRpn limit rpn = .ok e) ∧
      (limit < e.depth → ∃ token ∈ rpn,
        Expr.ofRpn limit rpn = .error (.at token (.recursionLimitExceeded limit))) := by
  unfold Expr.ofRpn
  rw [Expr.depth_eq_height]
  rcases Operand.leaves_of_postfix limit h [] with ⟨span, hfits, hfold⟩ | ⟨token, member, hhigh, hfold⟩
  · rw [hfold]
    exact ⟨fun _ => rfl, fun hhigh => absurd hfits (Nat.not_le_of_lt hhigh)⟩
  · rw [hfold]
    exact ⟨fun hfits => absurd hfits (Nat.not_le_of_lt hhigh), fun _ => ⟨token, member, rfl⟩⟩

end Formula
