import Formula.Proofs.Parse.Acceptance
import Formula.Proofs.Parse.Regions

/-!
The fault that is reported. Whether a token can be taken depends on how many operands
there are, and that is a count of the tokens before it, as long as these were taken
themselves; and on the height of what it builds, which the tokens before it list. So the
first token that has a fault among the tokens before it is the one that the error points
at, whatever comes after it.
-/

namespace Formula

def operandsLeft (tokens : List Token) : Int :=
  tokens.countP (·.kind.isLeaf) - tokens.countP (·.kind.isBinary)

/-- `Fault limit before token cause`: what keeps the token from being taken after those
before it. -/
inductive Fault (limit : Nat) (before : List Token) (token : Token) : ParseCause → Prop
  | parenthesis (kind : token.kind = .leftParen ∨ token.kind = .rightParen) :
      Fault limit before token (.unknownToken token.kind)
  | unreadable (kind : token.kind = .number) (unread : Number.read? token.lexeme = none) :
      Fault limit before token (.unknownToken token.kind)
  | binary {op : BinaryOp} (kind : token.kind = .binary op) (short : operandsLeft before < 2) :
      Fault limit before token .operandUnderflow
  | unary (kind : token.kind = .neg ∨ ∃ func, token.kind = .func func)
      (short : operandsLeft before < 1) : Fault limit before token .operandUnderflow
  | deep {below operands : List Token} {e : Expr} (split : before = below ++ operands)
      (lists : Postfix (operands ++ [token]) e) (high : limit < e.depth) :
      Fault limit before token (.recursionLimitExceeded limit)

def Faultless (limit : Nat) (rpn : List Token) : Prop :=
  ∀ before token, before ++ [token] <+: rpn → ∀ cause, ¬Fault limit before token cause

/-- The first tokens, up to where an operand is complete for the last time. -/
structure IsFirstOperand (first rpn : List Token) : Prop where
  isFirst : first <+: rpn
  complete : ∃ e, Postfix first e
  longest : ∀ longer e, longer <+: rpn → Postfix longer e → longer.length ≤ first.length

theorem operandsLeft_append (before after : List Token) :
    operandsLeft (before ++ after) = operandsLeft before + operandsLeft after := by
  unfold operandsLeft
  rw [List.countP_append, List.countP_append]
  omega

theorem Postfix.operandsLeft_eq {rpn : List Token} {e : Expr} (h : Postfix rpn e) :
    operandsLeft rpn = 1 := by
  have hcount := h.countP_isLeaf
  unfold operandsLeft
  omega

theorem Faultless.of_isPrefix {limit : Nat} {before rpn : List Token} (h : Faultless limit rpn)
    (begins : before <+: rpn) : Faultless limit before :=
  fun earlier token hbegins => h earlier token (hbegins.trans begins)

theorem faultless_nil (limit : Nat) : Faultless limit [] := by
  intro before token hbegins
  simp at hbegins

theorem faultless_concat {limit : Nat} {rpn : List Token} {token : Token} :
    Faultless limit (rpn ++ [token]) ↔
      Faultless limit rpn ∧ ∀ cause, ¬Fault limit rpn token cause := by
  constructor
  · intro h
    exact ⟨h.of_isPrefix (List.prefix_append _ _), h rpn token List.prefix_rfl⟩
  · rintro ⟨hrpn, htoken⟩ before first hbegins
    rcases List.prefix_concat_iff.mp hbegins with heq | hbegins
    · obtain ⟨rfl, hsame⟩ := List.append_inj' heq rfl
      obtain rfl := List.singleton_inj.mp hsame
      exact htoken
    · exact hrpn before first hbegins

/-- If any token has a fault, there is a first that has one. -/
theorem faultless_or_exists_fault (limit : Nat) (rpn : List Token) :
    Faultless limit rpn ∨ ∃ before token after cause, rpn = before ++ token :: after ∧
      Faultless limit before ∧ Fault limit before token cause := by
  induction rpn using List.reverseRecOn with
  | nil => exact .inl (faultless_nil limit)
  | append_singleton rpn token ih =>
      rcases ih with hrpn | ⟨before, first, after, cause, rfl, hbefore, hfault⟩
      · by_cases hfault : ∃ cause, Fault limit rpn token cause
        · obtain ⟨cause, hfault⟩ := hfault
          exact .inr ⟨rpn, token, [], cause, rfl, hrpn, hfault⟩
        · exact .inl (faultless_concat.mpr ⟨hrpn, not_exists.mp hfault⟩)
      · refine .inr ⟨before, first, after ++ [token], cause, ?_, hbefore, hfault⟩
        rw [List.append_assoc, List.cons_append]

namespace Operand

variable {limit : Nat} {before : List Token} {stack : List Operand} {token : Token}

/-- The stack is as high as the tokens count. -/
theorem Covers.operandsLeft_eq {rpn : List Token} (h : Covers limit rpn stack) :
    operandsLeft rpn = stack.length := by
  induction h with
  | empty => rfl
  | push below lists height fits ih =>
      rw [operandsLeft_append, ih, lists.operandsLeft_eq, List.length_cons]
      rfl

theorem pushWithin_eq_error {operand : Operand} {error : ParseError}
    (h : pushWithin limit token operand stack = .error error) :
    limit < operand.height ∧ error = .at token (.recursionLimitExceeded limit) := by
  unfold pushWithin at h
  split at h
  · rename_i hhigh
    cases h
    exact ⟨hhigh, rfl⟩
  · cases h

/-- An operand that is not put back on the stack is too deep, and the last tokens list it. -/
theorem fault_of_pushWithin {below operands : List Token} {operand : Operand}
    {error : ParseError} (lists : Postfix (operands ++ [token]) operand.expr)
    (height : operand.height = operand.expr.height)
    (h : pushWithin limit token operand stack = .error error) :
    ∃ cause, Fault limit (below ++ operands) token cause ∧ error = ⟨[token.span], cause⟩ := by
  obtain ⟨hhigh, rfl⟩ := pushWithin_eq_error h
  rw [height, ← Expr.depth_eq_height] at hhigh
  exact ⟨_, .deep rfl lists hhigh, rfl⟩

theorem fault_of_leaf {e : Expr} {error : ParseError} (lists : Postfix [token] e)
    (height : e.height = 1) (h : pushWithin limit token (leaf token e) stack = .error error) :
    ∃ cause, Fault limit before token cause ∧ error = ⟨[token.span], cause⟩ := by
  rw [← List.append_nil before]
  exact fault_of_pushWithin (by rwa [List.nil_append]) height.symm h

theorem fault_of_unary {operand : Operand} {build : Expr → Expr} {error : ParseError}
    (covers : Covers limit before (operand :: stack))
    (lists : ∀ rpn, Postfix rpn operand.expr → Postfix (rpn ++ [token]) (build operand.expr))
    (height : (build operand.expr).height = operand.expr.height + 1)
    (h : pushWithin limit token (unary token build operand) stack = .error error) :
    ∃ cause, Fault limit before token cause ∧ error = ⟨[token.span], cause⟩ := by
  cases covers with
  | push below hlists hheight hfits =>
      refine fault_of_pushWithin (lists _ hlists) ?_ h
      simp only [unary, height, hheight]

theorem fault_of_binary {lhs rhs : Operand} {op : BinaryOp} {error : ParseError}
    (covers : Covers limit before (rhs :: lhs :: stack)) (kind : token.kind = .binary op)
    (h : pushWithin limit token (binary token op lhs rhs) stack = .error error) :
    ∃ cause, Fault limit before token cause ∧ error = ⟨[token.span], cause⟩ := by
  cases covers with
  | push hleft right rightHeight rightFits =>
      cases hleft with
      | push below left leftHeight leftFits =>
          rw [List.append_assoc]
          refine fault_of_pushWithin (.binary kind left right) ?_ h
          simp only [binary, Expr.height, leftHeight, rightHeight]

theorem operandsLeft_lt_one (covers : Covers limit before stack)
    (few : ∀ operand rest, stack = operand :: rest → False) : operandsLeft before < 1 := by
  rw [covers.operandsLeft_eq]
  cases stack with
  | nil => decide
  | cons operand rest => exact (few operand rest rfl).elim

theorem operandsLeft_lt_two (covers : Covers limit before stack)
    (few : ∀ rhs lhs rest, stack = rhs :: lhs :: rest → False) : operandsLeft before < 2 := by
  rw [covers.operandsLeft_eq]
  match stack with
  | [] => decide
  | [_] => exact (by decide : (1 : Int) < 2)
  | rhs :: lhs :: rest => exact (few rhs lhs rest rfl).elim

/-- A token that is not taken has a fault, and the error points at that token. -/
theorem fault_of_reduce {error : ParseError} (covers : Covers limit before stack)
    (h : reduce limit stack token = .error error) :
    ∃ cause, Fault limit before token cause ∧ error = ⟨[token.span], cause⟩ := by
  unfold Operand.reduce at h
  split at h
  · rename_i kind
    split at h
    · rename_i value read
      exact fault_of_leaf (.number kind read) rfl h
    · rename_i unread
      cases h
      exact ⟨_, .unreadable kind unread, by rw [kind]; rfl⟩
  · rename_i kind
    exact fault_of_leaf (.letter kind) rfl h
  · rename_i operand rest kind
    exact fault_of_unary covers (fun rpn => .neg kind) rfl h
  · rename_i func operand rest kind
    exact fault_of_unary covers (fun rpn => .call kind) rfl h
  · rename_i op rhs lhs rest kind
    exact fault_of_binary covers kind h
  -- What is left are operations on a stack that holds too little for them, and parentheses.
  · rename_i kind few
    cases h
    exact ⟨_, .unary (.inl kind) (operandsLeft_lt_one covers few), rfl⟩
  · rename_i func kind few
    cases h
    exact ⟨_, .unary (.inr ⟨func, kind⟩) (operandsLeft_lt_one covers few), rfl⟩
  · rename_i op kind few
    cases h
    exact ⟨_, .binary kind (operandsLeft_lt_two covers few), rfl⟩
  · rename_i kind
    cases h
    exact ⟨_, .parenthesis (.inl kind), by rw [kind]; rfl⟩
  · rename_i kind
    cases h
    exact ⟨_, .parenthesis (.inr kind), by rw [kind]; rfl⟩

/-- A token with a fault is not taken. -/
theorem reduce_of_fault {cause : ParseCause}
    (hfold : before.foldlM (reduce limit) [] = .ok stack)
    (fault : Fault limit before token cause) :
    reduce limit stack token = .error ⟨[token.span], cause⟩ := by
  have hcovers : Covers limit before stack := by
    simpa only [List.nil_append] using Covers.empty.foldlM_reduce hfold
  have hcount := hcovers.operandsLeft_eq
  cases fault with
  | parenthesis kind =>
      unfold reduce
      rcases kind with kind | kind <;> rw [kind] <;> rfl
  | unreadable kind unread =>
      unfold reduce
      rw [kind]
      simp only [unread]
      rfl
  | binary kind short =>
      match stack with
      | [] | [_] =>
          unfold reduce
          rw [kind]
          rfl
      | _ :: _ :: _ =>
          simp only [List.length_cons] at hcount
          omega
  | unary kind short =>
      match stack with
      | [] =>
          unfold reduce
          rcases kind with kind | ⟨func, kind⟩ <;> rw [kind] <;> rfl
      | _ :: _ =>
          simp only [List.length_cons] at hcount
          omega
  | @deep below operands e split lists high =>
      obtain ⟨lower, hoperands⟩ : ∃ lower, operands.foldlM (reduce limit) lower = .ok stack := by
        rw [split, List.foldlM_append] at hfold
        cases hbelow : below.foldlM (reduce limit) [] with
        | error error =>
            rw [hbelow] at hfold
            cases hfold
        | ok lower =>
            rw [hbelow] at hfold
            exact ⟨lower, hfold⟩
      have hleaves := leaves_of_postfix limit lists lower
      rw [foldlM_reduce_concat, hoperands] at hleaves
      rcases hleaves with ⟨region, hfits, -⟩ | ⟨bad, -, -, hreduce⟩
      · rw [Expr.depth_eq_height] at high
        exact absurd hfits (Nat.not_le_of_lt high)
      · -- The tokens of the operands have been taken, so it is this token that is reported.
        obtain ⟨cause, -, herror⟩ := fault_of_reduce hcovers hreduce
        obtain ⟨-, rfl⟩ := ParseError.mk.inj herror
        exact hreduce.trans (congrArg Except.error herror)

/-- All tokens are taken exactly if none has a fault. -/
theorem exists_foldlM_iff_faultless {rpn : List Token} :
    (∃ stack, rpn.foldlM (reduce limit) [] = .ok stack) ↔ Faultless limit rpn := by
  induction rpn using List.reverseRecOn with
  | nil => exact ⟨fun _ => faultless_nil limit, fun _ => ⟨[], rfl⟩⟩
  | append_singleton rpn token ih =>
      rw [faultless_concat, ← ih, foldlM_reduce_concat]
      constructor
      · rintro ⟨final, hfinal⟩
        cases hfold : rpn.foldlM (reduce limit) [] with
        | error error =>
            rw [hfold] at hfinal
            cases hfinal
        | ok stack =>
            refine ⟨⟨stack, rfl⟩, fun cause fault => ?_⟩
            rw [hfold] at hfinal
            cases hfinal.symm.trans (reduce_of_fault hfold fault)
      · rintro ⟨⟨stack, hfold⟩, hsound⟩
        rw [hfold]
        cases hreduce : reduce limit stack token with
        | ok final => exact ⟨final, hreduce⟩
        | error error =>
            have hcovers : Covers limit rpn stack := Covers.empty.foldlM_reduce hfold
            obtain ⟨cause, hfault, -⟩ := fault_of_reduce hcovers hreduce
            exact absurd hfault (hsound cause)

end Operand

namespace Expr

open Operand

variable {limit : Nat} {rpn : List Token}

/-- The first token that has a fault is reported, whatever comes after it. -/
theorem ofRpn_of_fault {before : List Token} {token : Token} {cause : ParseCause}
    (earlier : Faultless limit before) (fault : Fault limit before token cause)
    (after : List Token) :
    ofRpn limit (before ++ token :: after) = .error ⟨[token.span], cause⟩ := by
  obtain ⟨stack, hfold⟩ := exists_foldlM_iff_faultless.mpr earlier
  unfold ofRpn
  rw [foldlM_reduce_append hfold, List.foldlM_cons, reduce_of_fault hfold fault]
  rfl

/-- Without a fault the stack covers the tokens, and its height is their count. -/
theorem exists_covers_of_faultless (sound : Faultless limit rpn) :
    ∃ stack, rpn.foldlM (reduce limit) [] = .ok stack ∧ Covers limit rpn stack := by
  obtain ⟨stack, hfold⟩ := exists_foldlM_iff_faultless.mpr sound
  exact ⟨stack, hfold, Covers.empty.foldlM_reduce hfold⟩

theorem exists_ofRpn_of_faultless (sound : Faultless limit rpn) (one : operandsLeft rpn = 1) :
    ∃ e, Postfix rpn e ∧ ofRpn limit rpn = .ok e := by
  obtain ⟨stack, hfold, hcovers⟩ := exists_covers_of_faultless sound
  rw [hcovers.operandsLeft_eq] at one
  obtain ⟨operand, rfl⟩ := List.length_eq_one_iff.mp (Int.ofNat_inj.mp one)
  refine ⟨operand.expr, hcovers.singleton.1, ?_⟩
  unfold ofRpn
  rw [hfold]
  rfl

theorem operandsLeft_pos_of_faultless (sound : Faultless limit rpn) (nonempty : rpn ≠ []) :
    1 ≤ operandsLeft rpn := by
  obtain ⟨stack, -, hcovers⟩ := exists_covers_of_faultless sound
  rw [hcovers.operandsLeft_eq]
  cases hcovers with
  | empty => exact absurd rfl nonempty
  | push below lists height fits =>
      rw [List.length_cons]
      omega

/-- Two operands or more are not joined, and what comes after the first is too much. -/
theorem ofRpn_of_trailing (sound : Faultless limit rpn) (many : 2 ≤ operandsLeft rpn) :
    ∃ first rest region, rpn = first ++ rest ∧ IsFirstOperand first rpn ∧
      Span.IsHull region (rest.map (·.span)) ∧
      ofRpn limit rpn = .error ⟨[region], .trailingTokens⟩ := by
  obtain ⟨stack, -, hcovers⟩ := exists_covers_of_faultless sound
  have hcount := hcovers.operandsLeft_eq
  obtain ⟨first, rest, e, region, above, rfl, hfirst, hrest, hull, herror⟩ :=
    hcovers.result_eq_error (by omega)
  refine ⟨first, rest, region, rfl, ⟨List.prefix_append first rest, ⟨e, hfirst⟩, ?_⟩, hull,
    herror⟩
  intro longer other hbegins hlonger
  apply Nat.le_of_not_lt
  intro hlength
  obtain ⟨more, rfl⟩ :=
    List.prefix_of_prefix_length_le (List.prefix_append first rest) hbegins (Nat.le_of_lt hlength)
  -- What makes it longer begins the rest, so it leaves an operand of its own.
  have hmore : Faultless limit more := by
    obtain ⟨_, hfold, -⟩ := hrest.exists_regions []
    exact (exists_foldlM_iff_faultless.mp ⟨_, hfold⟩).of_isPrefix
      ((List.prefix_append_right_inj first).mp hbegins)
  have hleft : 1 ≤ operandsLeft more :=
    operandsLeft_pos_of_faultless hmore (by rintro rfl; simp at hlength)
  have htotal := hlonger.operandsLeft_eq
  rw [operandsLeft_append, hfirst.operandsLeft_eq] at htotal
  omega

/-- Tokens in reverse Polish notation, read up to the first fault. A token has one if it is
a parenthesis or a number that cannot be read, if it is an operation and the tokens
before it leave too few operands, or if what it builds is too deep; the error is that of
the first one and points at it, whatever follows. If there is none, one operand that is
left is the result, no token at all has nothing to point at, and of two operands or more
everything after the first is too much. -/
theorem ofRpn_first_fault (limit : Nat) (rpn : List Token) :
    (∀ before token after cause, rpn = before ++ token :: after → Faultless limit before →
        Fault limit before token cause → ofRpn limit rpn = .error ⟨[token.span], cause⟩) ∧
      (Faultless limit rpn →
        (operandsLeft rpn = 1 → ∃ e, Postfix rpn e ∧ ofRpn limit rpn = .ok e) ∧
        (rpn = [] → ofRpn limit rpn = .error ⟨[], .emptyExpression⟩) ∧
        (2 ≤ operandsLeft rpn → ∃ first rest region, rpn = first ++ rest ∧
          IsFirstOperand first rpn ∧ Span.IsHull region (rest.map (·.span)) ∧
          ofRpn limit rpn = .error ⟨[region], .trailingTokens⟩) ∧
        (rpn = [] ∨ 1 ≤ operandsLeft rpn)) ∧
      (Faultless limit rpn ∨ ∃ before token after cause, rpn = before ++ token :: after ∧
        Faultless limit before ∧ Fault limit before token cause) := by
  refine ⟨?_, fun sound => ⟨exists_ofRpn_of_faultless sound, ?_, ofRpn_of_trailing sound, ?_⟩,
    faultless_or_exists_fault limit rpn⟩
  · rintro before token after cause rfl earlier fault
    exact ofRpn_of_fault earlier fault after
  · rintro rfl
    rfl
  · exact or_iff_not_imp_left.mpr (operandsLeft_pos_of_faultless sound)

/-- In `x + (` the operator is reported, and not the parenthesis after it. -/
theorem ofRpn_first_fault_operator :
    ofRpn 8 [⟨⟨0, 1⟩, .letter, ['x']⟩, ⟨⟨2, 3⟩, .binary .add, ['+']⟩,
        ⟨⟨4, 5⟩, .leftParen, ['(']⟩] =
      .error ⟨[⟨2, 3⟩], .operandUnderflow⟩ := by
  have hsound : Faultless 8 [⟨⟨0, 1⟩, .letter, ['x']⟩] :=
    exists_foldlM_iff_faultless.mp ⟨_, rfl⟩
  exact (ofRpn_first_fault 8 _).1 _ _ _ _ rfl hsound (.binary rfl (by decide))

-- The region goes from the smallest start to the largest end, in whatever order.
example : ofRpn 8 [⟨⟨0, 1⟩, .letter, ['x']⟩, ⟨⟨4, 5⟩, .letter, ['z']⟩, ⟨⟨2, 3⟩, .letter, ['y']⟩] =
    .error ⟨[⟨2, 5⟩], .trailingTokens⟩ := by
  rfl

end Expr

end Formula
