import Formula.Parse.Rpn
import Formula.Proofs.Cut

/-!
What the reordering does to any tokens, whether they make an expression or not. `Places`
lists all that taking a token can do. From it follow the two laws of a run that comes to
an end: the parentheses are nested, and apart from them every token comes out exactly
once, as it counts after the one before it.
-/

namespace Formula

def TokenKind.isParen : TokenKind → Bool
  | .leftParen | .rightParen => true
  | _ => false

def TokenKind.isLeaf : TokenKind → Bool
  | .number | .letter => true
  | _ => false

namespace Rpn

/-- What becomes of the state when a token is taken. Only an opening parenthesis holds back
what a closing one lets out. -/
inductive Places (state : State) (token : Token) : State → Prop
  | operand (kind : token.kind = .number ∨ token.kind = .letter) :
      Places state token ⟨state.output.push token, state.stack, some token.kind⟩
  | opening (kind : token.kind = .leftParen) :
      Places state token ⟨state.output, token :: state.stack, some token.kind⟩
  | function (kind : token.kind.isFunction = true) :
      Places state token ⟨state.output, token :: state.stack, some token.kind⟩
  | closing {above below : List Token} {opening : Token} (kind : token.kind = .rightParen)
      (stack : state.stack = above ++ opening :: below) (opens : isOpening opening = true)
      (inside : ∀ top ∈ above, isOpening top = false) :
      Places state token ⟨state.output ++ above, below, some token.kind⟩
  | operator {above below : List Token} (kind : token.kind.isOperator = true)
      (stack : state.stack = above ++ below) (out : ∀ top ∈ above, top.yieldsTo token = true)
      (stay : ∀ top ∈ below.head?, top.yieldsTo token = false) :
      Places state token ⟨state.output ++ above, token :: below, some token.kind⟩

theorem places_of_place {state next : State} {token : Token} (h : state.place token = .ok next) :
    Places state token next := by
  have hoperator (kind : token.kind.isOperator = true)
      (hnext : next = ⟨state.output ++ state.stack.takeWhile (·.yieldsTo token),
        token :: state.stack.dropWhile (·.yieldsTo token), some token.kind⟩) :
      Places state token next := by
    obtain ⟨above, below, hstack, habove, hbelow, hout, hstay⟩ :=
      exists_cut (·.yieldsTo token) state.stack
    rw [hnext, habove, hbelow]
    exact .operator kind hstack hout hstay
  unfold State.place at h
  cases hkind : token.kind with
  | number =>
      simp only [hkind, Except.ok.injEq] at h
      rw [← h, ← hkind]
      exact .operand (.inl hkind)
  | letter =>
      simp only [hkind, Except.ok.injEq] at h
      rw [← h, ← hkind]
      exact .operand (.inr hkind)
  | leftParen =>
      simp only [hkind, Except.ok.injEq] at h
      rw [← h, ← hkind]
      exact .opening hkind
  | func func =>
      simp only [hkind, Except.ok.injEq] at h
      rw [← h, ← hkind]
      exact .function (by rw [hkind]; rfl)
  | neg =>
      simp only [hkind, Except.ok.injEq] at h
      apply hoperator (by rw [hkind]; rfl)
      rw [← h, hkind]
  | binary op =>
      simp only [hkind, Except.ok.injEq] at h
      apply hoperator (by rw [hkind]; rfl)
      rw [← h, hkind]
  | rightParen =>
      obtain ⟨above, below, hstack, habove, hbelow, hinside, hopens⟩ :=
        exists_cut (!isOpening ·) state.stack
      simp only [hkind, habove, hbelow] at h
      cases below with
      | nil => cases h
      | cons opening below =>
          simp only [Except.ok.injEq] at h
          rw [← h, ← hkind]
          apply Places.closing hkind hstack
          · simpa using hopens opening rfl
          · simpa using hinside

theorem Places.last_eq {state next : State} {token : Token} (h : Places state token next) :
    next.last = some token.kind := by
  cases h <;> rfl

/-- What has been taken and not been let go: all that went out, and all that waits except
the parentheses. -/
def State.held (state : State) : List Token :=
  state.output.toList ++ state.stack.filter (!isOpening ·)

def State.depth (state : State) : Nat := state.stack.countP isOpening

theorem isOpening_eq_false_of_yieldsTo {top incoming : Token} (h : top.yieldsTo incoming = true) :
    isOpening top = false := by
  rw [isOpening, beq_eq_false_iff_ne]
  intro hkind
  simp [Token.yieldsTo, Token.precedence, Token.associativity, hkind, TokenKind.isFunction,
    TokenKind.precedence, TokenKind.associativity, Precedence.rank] at h

theorem filter_of_waiting {above : List Token} (h : ∀ top ∈ above, isOpening top = false) :
    above.filter (!isOpening ·) = above := by
  rw [List.filter_eq_self]
  intro top member
  rw [h top member]
  rfl

theorem filter_of_opening {opening : Token} (h : isOpening opening = true) (rest : List Token) :
    (opening :: rest).filter (!isOpening ·) = rest.filter (!isOpening ·) := by
  simp [h]

theorem isOpening_of_leftParen {token : Token} (kind : token.kind = .leftParen) :
    isOpening token = true := by
  rw [isOpening, kind]
  rfl

theorem isParen_of_operand {token : Token}
    (kind : token.kind = .number ∨ token.kind = .letter) : token.kind.isParen = false := by
  rcases kind with kind | kind
  · rw [kind]
    rfl
  · rw [kind]
    rfl

/-- No operation is a parenthesis. -/
theorem not_paren_of_isOperation {token : Token} (h : token.kind.isOperation = true) :
    token.kind.isParen = false ∧ isOpening token = false := by
  unfold isOpening
  cases hkind : token.kind with
  | binary op => exact ⟨rfl, rfl⟩
  | neg => exact ⟨rfl, rfl⟩
  | func func => exact ⟨rfl, rfl⟩
  | _ =>
      rw [hkind] at h
      cases h

theorem not_paren_of_isFunction {token : Token} (h : token.kind.isFunction = true) :
    token.kind.isParen = false ∧ isOpening token = false :=
  not_paren_of_isOperation (by rw [TokenKind.isOperation, h, Bool.or_true])

theorem not_paren_of_isOperator {token : Token} (h : token.kind.isOperator = true) :
    token.kind.isParen = false ∧ isOpening token = false :=
  not_paren_of_isOperation (by rw [TokenKind.isOperation, h, Bool.true_or])

theorem filter_paren {token : Token} (h : token.kind.isParen = true) :
    [token].filter (!·.kind.isParen) = [] :=
  List.filter_cons_of_neg (by rw [h]; exact Bool.false_ne_true)

theorem filter_other {token : Token} (h : token.kind.isParen = false) :
    [token].filter (!·.kind.isParen) = [token] :=
  List.filter_cons_of_pos (by rw [h]; rfl)

/-- A token that goes on the stack between what went out and what waits. -/
theorem perm_middle_filter {token : Token} (h : token.kind.isParen = false)
    (before after : List Token) :
    (before ++ token :: after).Perm (before ++ after ++ [token].filter (!·.kind.isParen)) := by
  rw [filter_other h]
  exact List.perm_middle.trans (List.perm_append_singleton token (before ++ after)).symm

/-- A token that is taken is held, unless it is a parenthesis. -/
theorem Places.held_perm {state next : State} {token : Token} (h : Places state token next) :
    next.held.Perm (state.held ++ [token].filter (!·.kind.isParen)) := by
  cases h with
  | operand kind =>
      have hmiddle := perm_middle_filter (isParen_of_operand kind) state.output.toList
        (state.stack.filter (!isOpening ·))
      simpa only [State.held, Array.toList_push, List.append_assoc, List.cons_append,
        List.nil_append] using hmiddle
  | opening kind =>
      rw [State.held, State.held, filter_of_opening (isOpening_of_leftParen kind), filter_paren (by rw [kind]; rfl),
        List.append_nil]
  | function kind =>
      have hother := not_paren_of_isFunction kind
      have hmiddle := perm_middle_filter hother.1 state.output.toList
        (state.stack.filter (!isOpening ·))
      rw [State.held, State.held, List.filter_cons_of_pos (by rw [hother.2]; rfl)]
      exact hmiddle
  | @closing above below opening kind stack opens inside =>
      rw [State.held, State.held, stack, List.filter_append, filter_of_waiting inside,
        filter_of_opening opens, filter_paren (by rw [kind]; rfl), List.append_nil,
        Array.toList_appendList, List.append_assoc]
  | @operator above below kind stack out stay =>
      have hother := not_paren_of_isOperator kind
      have hwaiting : ∀ top ∈ above, isOpening top = false :=
        fun top member => isOpening_eq_false_of_yieldsTo (out top member)
      have hmiddle := perm_middle_filter hother.1 (state.output.toList ++ above)
        (below.filter (!isOpening ·))
      rw [State.held, State.held, stack, List.filter_append, filter_of_waiting hwaiting,
        List.filter_cons_of_pos (by rw [hother.2]; rfl), Array.toList_appendList,
        ← List.append_assoc state.output.toList]
      exact hmiddle

/-- Whether parentheses can be closed as they come, with some of them open at first. -/
def Nested : Nat → List Token → Prop
  | depth, [] => depth = 0
  | depth, token :: rest =>
      match token.kind, depth with
      | .leftParen, depth => Nested (depth + 1) rest
      | .rightParen, 0 => False
      | .rightParen, depth + 1 => Nested depth rest
      | _, depth => Nested depth rest

theorem nested_opening {token : Token} (kind : token.kind = .leftParen) (depth : Nat)
    (rest : List Token) : Nested depth (token :: rest) ↔ Nested (depth + 1) rest := by
  simp only [Nested, kind]

theorem nested_closing {token : Token} (kind : token.kind = .rightParen) (depth : Nat)
    (rest : List Token) : Nested (depth + 1) (token :: rest) ↔ Nested depth rest := by
  simp only [Nested, kind]

theorem nested_other {token : Token} (kind : token.kind.isParen = false) (depth : Nat)
    (rest : List Token) : Nested depth (token :: rest) ↔ Nested depth rest := by
  cases hkind : token.kind with
  | leftParen =>
      rw [hkind] at kind
      cases kind
  | rightParen =>
      rw [hkind] at kind
      cases kind
  | _ => simp only [Nested, hkind]

theorem countP_of_waiting {above : List Token} (h : ∀ top ∈ above, isOpening top = false) :
    above.countP isOpening = 0 := by
  rw [List.countP_eq_zero]
  intro top member
  rw [h top member]
  exact Bool.false_ne_true

/-- A closing parenthesis closes one that waits. -/
theorem Places.nested_iff {state next : State} {token : Token} (h : Places state token next)
    (rest : List Token) : Nested state.depth (token :: rest) ↔ Nested next.depth rest := by
  cases h with
  | operand kind =>
      exact nested_other (isParen_of_operand kind) _ rest
  | opening kind =>
      have hdepth : State.depth ⟨state.output, token :: state.stack, some token.kind⟩ =
          state.depth + 1 := List.countP_cons_of_pos (isOpening_of_leftParen kind)
      rw [nested_opening kind, hdepth]
  | function kind =>
      have hother := not_paren_of_isFunction kind
      have hdepth : State.depth ⟨state.output, token :: state.stack, some token.kind⟩ =
          state.depth := List.countP_cons_of_neg (by rw [hother.2]; exact Bool.false_ne_true)
      rw [nested_other hother.1, hdepth]
  | @closing above below opening kind stack opens inside =>
      have hdepth : state.depth =
          State.depth ⟨state.output ++ above, below, some token.kind⟩ + 1 := by
        rw [State.depth, State.depth, stack, List.countP_append, countP_of_waiting inside,
          List.countP_cons_of_pos opens, Nat.zero_add]
      rw [hdepth, nested_closing kind]
  | @operator above below kind stack out stay =>
      have hother := not_paren_of_isOperator kind
      have hwaiting : ∀ top ∈ above, isOpening top = false :=
        fun top member => isOpening_eq_false_of_yieldsTo (out top member)
      have hdepth : State.depth ⟨state.output ++ above, token :: below, some token.kind⟩ =
          state.depth := by
        rw [State.depth, State.depth, stack, List.countP_append, countP_of_waiting hwaiting,
          Nat.zero_add]
        exact List.countP_cons_of_neg (by rw [hother.2]; exact Bool.false_ne_true)
      rw [nested_other hother.1, hdepth]

/-- The tokens as they count, each after the one before it. -/
def resolved : Option TokenKind → List Token → List Token
  | _, [] => []
  | last, token :: rest =>
      resolve last token :: resolved (some (resolve last token).kind) rest

inductive Takes : State → List Token → State → Prop
  | nil (state : State) : Takes state [] state
  | cons {state next final : State} {token : Token} {rest : List Token}
      (first : Places state (resolve state.last token) next) (later : Takes next rest final) :
      Takes state (token :: rest) final

theorem takes_of_foldlM {tokens : List Token} {state final : State}
    (h : tokens.foldlM State.feed state = .ok final) : Takes state tokens final := by
  induction tokens generalizing state with
  | nil =>
      cases h
      exact .nil _
  | cons token rest ih =>
      rw [List.foldlM_cons] at h
      cases hstep : state.feed token with
      | error error =>
          rw [hstep] at h
          cases h
      | ok next =>
          rw [hstep] at h
          exact .cons (places_of_place hstep) (ih h)

theorem Takes.held_perm {tokens : List Token} {state final : State} (h : Takes state tokens final) :
    final.held.Perm (state.held ++ (resolved state.last tokens).filter (!·.kind.isParen)) := by
  induction h with
  | nil state => exact List.Perm.of_eq (List.append_nil _).symm
  | @cons state next final token rest first later ih =>
      rw [first.last_eq] at ih
      rw [resolved, ← List.singleton_append, List.filter_append, ← List.append_assoc]
      exact ih.trans (first.held_perm.append_right _)

theorem resolve_cases (last : Option TokenKind) (token : Token) :
    (token.kind = .binary .sub ∧ isUnaryPosition last = true ∧ (resolve last token).kind = .neg) ∨
      resolve last token = token := by
  unfold resolve
  split
  · rename_i hminus
    exact .inl ⟨hminus.1, hminus.2, rfl⟩
  · exact .inr rfl

/-- A minus sign is no parenthesis either way. -/
theorem nested_resolve (last : Option TokenKind) (token : Token) (depth : Nat)
    (rest : List Token) :
    Nested depth (resolve last token :: rest) ↔ Nested depth (token :: rest) := by
  rcases resolve_cases last token with ⟨kind, -, counted⟩ | counted
  · rw [nested_other (by rw [counted]; rfl), nested_other (by rw [kind]; rfl)]
  · rw [counted]

theorem Takes.nested {tokens : List Token} {state final : State} (h : Takes state tokens final)
    (closed : final.depth = 0) : Nested state.depth tokens := by
  induction h with
  | nil state => exact closed
  | cons first later ih =>
      rw [← nested_resolve, first.nested_iff]
      exact ih closed

/-- If tokens are reordered, they have all been taken, no parenthesis waits, and what
waits goes out last. -/
theorem exists_foldlM_of_ofTokens {tokens rpn : List Token} (h : ofTokens tokens = .ok rpn) :
    ∃ final : State, tokens.foldlM State.feed State.start = .ok final ∧
      (∀ top ∈ final.stack, isOpening top = false) ∧
      rpn = final.output.toList ++ final.stack := by
  unfold ofTokens at h
  cases hfold : tokens.foldlM State.feed State.start with
  | error error =>
      rw [hfold] at h
      cases h
  | ok final =>
      rw [hfold] at h
      change final.finish = .ok rpn at h
      unfold State.finish at h
      cases hfind : final.stack.find? isOpening with
      | some opening =>
          rw [hfind] at h
          cases h
      | none =>
          rw [hfind] at h
          refine ⟨final, rfl, by simpa using hfind, ?_⟩
          rw [← Array.toList_appendList]
          exact (Except.ok.inj h).symm

/-- If tokens are reordered, their parentheses are nested, and what comes out are the other
tokens, as they count. -/
theorem conserves_of_ofTokens {tokens rpn : List Token} (h : ofTokens tokens = .ok rpn) :
    Nested 0 tokens ∧ rpn.Perm ((resolved none tokens).filter (!·.kind.isParen)) := by
  obtain ⟨final, hfold, hwaiting, rfl⟩ := exists_foldlM_of_ofTokens h
  have htakes := takes_of_foldlM hfold
  refine ⟨htakes.nested (countP_of_waiting hwaiting), ?_⟩
  have hperm := htakes.held_perm
  rwa [State.held, filter_of_waiting hwaiting] at hperm

end Rpn

end Formula
