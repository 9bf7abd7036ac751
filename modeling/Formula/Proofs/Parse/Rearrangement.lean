import Formula.Proofs.Parse.Conservation

/-!
What a reordering keeps. Apart from parentheses every token comes out once, as it was
but for the minus signs that are negations, and which these are can be read off the
tokens as they were written: how the token before counts makes no difference to it.
Numbers and variables never wait, so they come out in the order in which they came.
-/

namespace Formula

/-- No operand ends before this place: a minus sign here is a negation. -/
def BeginsOperand (tokens : List Token) (place : Nat) : Prop :=
  place = 0 ∨ ∃ before, tokens[place - 1]? = some before ∧
    (before.kind = .leftParen ∨ before.kind.isOperator = true ∨ before.kind.isFunction = true)

namespace Rpn

theorem isUnaryPosition_some_iff (kind : TokenKind) :
    isUnaryPosition (some kind) = true ↔
      kind = .leftParen ∨ kind.isOperator = true ∨ kind.isFunction = true := by
  simp only [isUnaryPosition, TokenKind.isOperation, Bool.or_eq_true, beq_iff_eq]

/-- A minus sign is an operator whether it is a negation or not. -/
theorem isUnaryPosition_resolve (last : Option TokenKind) (token : Token) :
    isUnaryPosition (some (resolve last token).kind) = isUnaryPosition (some token.kind) := by
  rcases resolve_cases last token with ⟨kind, -, counted⟩ | counted
  · rw [counted, kind]
    rfl
  · rw [counted]

theorem resolve_congr {last last' : Option TokenKind}
    (h : isUnaryPosition last = isUnaryPosition last') (token : Token) :
    resolve last token = resolve last' token := by
  rw [resolve, resolve, h]

/-- How tokens count, each by the one before it as it was written. -/
theorem getElem?_resolved (tokens : List Token) {last last' : Option TokenKind}
    (h : isUnaryPosition last = isUnaryPosition last') (place : Nat) :
    (resolved last tokens)[place]? =
      tokens[place]?.map
        (resolve (if place = 0 then last' else tokens[place - 1]?.map (·.kind))) := by
  induction tokens generalizing last last' place with
  | nil => rfl
  | cons token rest ih =>
      cases place with
      | zero => exact congrArg some (resolve_congr h token)
      | succ place =>
          have hrest := ih (isUnaryPosition_resolve last token) place
          rw [resolved, List.getElem?_cons_succ, List.getElem?_cons_succ, hrest]
          cases place <;> rfl

theorem length_resolved (last : Option TokenKind) (tokens : List Token) :
    (resolved last tokens).length = tokens.length := by
  induction tokens generalizing last with
  | nil => rfl
  | cons token rest ih => exact congrArg (· + 1) (ih _)

theorem resolve_eq_reclassify {last : Option TokenKind} {token : Token}
    (kind : token.kind = .binary .sub) (position : isUnaryPosition last = true) :
    resolve last token = token.reclassify .neg := by
  rw [resolve, if_pos ⟨kind, position⟩]

theorem resolve_eq_self {last : Option TokenKind} {token : Token}
    (h : ¬(token.kind = .binary .sub ∧ isUnaryPosition last = true)) :
    resolve last token = token := by
  rw [resolve, if_neg h]

/-- The token before a place decides as `BeginsOperand` says. -/
theorem isUnaryPosition_before_iff {tokens : List Token} {place : Nat} {token : Token}
    (h : tokens[place]? = some token) :
    isUnaryPosition (if place = 0 then none else tokens[place - 1]?.map (·.kind)) = true ↔
      BeginsOperand tokens place := by
  cases place with
  | zero => exact ⟨fun _ => .inl rfl, fun _ => rfl⟩
  | succ place =>
      obtain ⟨hplace, -⟩ := List.getElem?_eq_some_iff.mp h
      have hbefore : tokens[place]? = some tokens[place] :=
        List.getElem?_eq_getElem (Nat.lt_of_succ_lt hplace)
      simp only [BeginsOperand, Nat.succ_ne_zero, if_false, Nat.add_sub_cancel, hbefore,
        Option.map_some, isUnaryPosition_some_iff, Option.some.injEq, exists_eq_left', false_or]

theorem isLeaf_resolve (last : Option TokenKind) (token : Token) :
    [resolve last token].filter (·.kind.isLeaf) = [token].filter (·.kind.isLeaf) := by
  rcases resolve_cases last token with ⟨kind, -, counted⟩ | counted
  · rw [List.filter_cons_of_neg (by rw [counted]; exact Bool.false_ne_true),
      List.filter_cons_of_neg (by rw [kind]; exact Bool.false_ne_true)]
  · rw [counted]

theorem filter_leaf_of_operation {token : Token} (h : token.kind.isOperation = true)
    (rest : List Token) :
    (token :: rest).filter (·.kind.isLeaf) = rest.filter (·.kind.isLeaf) := by
  apply List.filter_cons_of_neg
  cases hkind : token.kind with
  | number =>
      rw [hkind] at h
      cases h
  | letter =>
      rw [hkind] at h
      cases h
  | _ => exact Bool.false_ne_true

theorem filter_leaf_of_paren {token : Token} (h : token.kind.isParen = true)
    (rest : List Token) :
    (token :: rest).filter (·.kind.isLeaf) = rest.filter (·.kind.isLeaf) := by
  apply List.filter_cons_of_neg
  cases hkind : token.kind with
  | leftParen => exact Bool.false_ne_true
  | rightParen => exact Bool.false_ne_true
  | _ =>
      rw [hkind] at h
      cases h

structure State.Emits (state : State) (leaves : List Token) : Prop where
  output : state.output.toList.filter (·.kind.isLeaf) = leaves
  stack : state.stack.filter (·.kind.isLeaf) = []

theorem Places.emits {state next : State} {token : Token} (h : Places state token next)
    {leaves : List Token} (emits : state.Emits leaves) :
    next.Emits (leaves ++ [token].filter (·.kind.isLeaf)) := by
  obtain ⟨houtput, hstack⟩ := emits
  cases h with
  | operand kind =>
      refine ⟨?_, hstack⟩
      rw [Array.toList_push, List.filter_append, houtput]
  | opening kind =>
      have hparen : token.kind.isParen = true := by rw [kind]; rfl
      refine ⟨?_, ?_⟩
      · rw [filter_leaf_of_paren hparen, List.filter_nil, List.append_nil, houtput]
      · rw [filter_leaf_of_paren hparen, hstack]
  | function kind =>
      have hoperation : token.kind.isOperation = true := by
        rw [TokenKind.isOperation, kind, Bool.or_true]
      refine ⟨?_, ?_⟩
      · rw [filter_leaf_of_operation hoperation, List.filter_nil, List.append_nil, houtput]
      · rw [filter_leaf_of_operation hoperation, hstack]
  | @closing above below opening kind stack opens inside =>
      rw [stack, List.filter_append, List.append_eq_nil_iff] at hstack
      obtain ⟨habove, hbelow⟩ := hstack
      have hparen : token.kind.isParen = true := by rw [kind]; rfl
      refine ⟨?_, ?_⟩
      · rw [filter_leaf_of_paren hparen, List.filter_nil, List.append_nil,
          Array.toList_appendList, List.filter_append, habove, houtput, List.append_nil]
      · exact (List.filter_eq_nil_iff.mpr fun top member =>
          List.filter_eq_nil_iff.mp hbelow top (List.mem_cons_of_mem _ member))
  | @operator above below kind stack out stay =>
      rw [stack, List.filter_append, List.append_eq_nil_iff] at hstack
      obtain ⟨habove, hbelow⟩ := hstack
      have hoperation : token.kind.isOperation = true := by
        rw [TokenKind.isOperation, kind, Bool.true_or]
      refine ⟨?_, ?_⟩
      · rw [filter_leaf_of_operation hoperation, List.filter_nil, List.append_nil,
          Array.toList_appendList, List.filter_append, habove, houtput, List.append_nil]
      · rw [filter_leaf_of_operation hoperation, hbelow]

theorem Takes.emits {tokens : List Token} {state final : State} (h : Takes state tokens final)
    {leaves : List Token} (emits : state.Emits leaves) :
    final.Emits (leaves ++ tokens.filter (·.kind.isLeaf)) := by
  induction h generalizing leaves with
  | nil state => rwa [List.filter_nil, List.append_nil]
  | @cons state next final token rest first later ih =>
      have hnext := first.emits emits
      rw [isLeaf_resolve] at hnext
      rw [← List.singleton_append, List.filter_append, ← List.append_assoc]
      exact ih hnext

/-- Numbers and variables come out in the order in which they came. -/
theorem filter_leaf_of_ofTokens {tokens rpn : List Token} (h : ofTokens tokens = .ok rpn) :
    rpn.filter (·.kind.isLeaf) = tokens.filter (·.kind.isLeaf) := by
  obtain ⟨final, hfold, -, rfl⟩ := exists_foldlM_of_ofTokens h
  have hstart : State.start.Emits [] := ⟨rfl, rfl⟩
  obtain ⟨houtput, hstack⟩ := (takes_of_foldlM hfold).emits hstart
  rw [List.filter_append, houtput, hstack, List.append_nil, List.nil_append]

end Rpn

/-- A reordering loses no token and makes none. Each token counts as it stands, unless it
is a minus sign where no operand ends: this counts as a negation, at the same place and
with the same text. Apart from parentheses the tokens come out as they count, and the
numbers and variables among them in the order in which they came. -/
theorem ofTokens_rearranges {tokens rpn : List Token} (h : Rpn.ofTokens tokens = .ok rpn) :
    ∃ counted : List Token, counted.length = tokens.length ∧
      (∀ place token, tokens[place]? = some token →
        (token.kind = .binary .sub ∧ BeginsOperand tokens place →
          counted[place]? = some ⟨token.span, .neg, token.lexeme⟩) ∧
        (¬(token.kind = .binary .sub ∧ BeginsOperand tokens place) →
          counted[place]? = some token)) ∧
      rpn.Perm (counted.filter (!·.kind.isParen)) ∧
      rpn.filter (·.kind.isLeaf) = tokens.filter (·.kind.isLeaf) := by
  refine ⟨Rpn.resolved none tokens, Rpn.length_resolved none tokens, ?_,
    (Rpn.conserves_of_ofTokens h).2, Rpn.filter_leaf_of_ofTokens h⟩
  intro place token hplace
  have hposition := Rpn.isUnaryPosition_before_iff hplace
  have hcounted := Rpn.getElem?_resolved tokens (Eq.refl (Rpn.isUnaryPosition none)) place
  rw [hplace, Option.map_some] at hcounted
  constructor
  · rintro ⟨kind, begins⟩
    rw [hcounted, Rpn.resolve_eq_reclassify kind (hposition.mpr begins)]
    rfl
  · intro other
    rw [← hposition] at other
    rw [hcounted, Rpn.resolve_eq_self other]

/-- In `x - (-y)` the second minus sign counts as a negation and the first does not. -/
theorem ofTokens_rearranges_second_minus :
    Rpn.ofTokens [⟨⟨0, 1⟩, .letter, ['x']⟩, ⟨⟨1, 2⟩, .binary .sub, ['-']⟩,
        ⟨⟨2, 3⟩, .leftParen, ['(']⟩, ⟨⟨3, 4⟩, .binary .sub, ['-']⟩, ⟨⟨4, 5⟩, .letter, ['y']⟩,
        ⟨⟨5, 6⟩, .rightParen, [')']⟩] =
      .ok [⟨⟨0, 1⟩, .letter, ['x']⟩, ⟨⟨4, 5⟩, .letter, ['y']⟩, ⟨⟨3, 4⟩, .neg, ['-']⟩,
        ⟨⟨1, 2⟩, .binary .sub, ['-']⟩] ∧
      ∃ counted : List Token, counted.length = 6 ∧
        counted[1]? = some ⟨⟨1, 2⟩, .binary .sub, ['-']⟩ ∧
        counted[3]? = some ⟨⟨3, 4⟩, .neg, ['-']⟩ ∧
        List.Perm [⟨⟨0, 1⟩, .letter, ['x']⟩, ⟨⟨4, 5⟩, .letter, ['y']⟩, ⟨⟨3, 4⟩, .neg, ['-']⟩,
          ⟨⟨1, 2⟩, .binary .sub, ['-']⟩] (counted.filter (!·.kind.isParen)) := by
  have h : Rpn.ofTokens [⟨⟨0, 1⟩, .letter, ['x']⟩, ⟨⟨1, 2⟩, .binary .sub, ['-']⟩,
        ⟨⟨2, 3⟩, .leftParen, ['(']⟩, ⟨⟨3, 4⟩, .binary .sub, ['-']⟩, ⟨⟨4, 5⟩, .letter, ['y']⟩,
        ⟨⟨5, 6⟩, .rightParen, [')']⟩] =
      .ok [⟨⟨0, 1⟩, .letter, ['x']⟩, ⟨⟨4, 5⟩, .letter, ['y']⟩, ⟨⟨3, 4⟩, .neg, ['-']⟩,
        ⟨⟨1, 2⟩, .binary .sub, ['-']⟩] := rfl
  obtain ⟨counted, hlength, hcounted, hperm, -⟩ := ofTokens_rearranges h
  refine ⟨h, counted, hlength, (hcounted 1 _ rfl).2 ?_, (hcounted 3 _ rfl).1 ?_, hperm⟩
  · rintro ⟨-, hfirst | ⟨before, hbefore, hkind⟩⟩
    · cases hfirst
    · cases hbefore
      simp [TokenKind.isOperator, TokenKind.isBinary, TokenKind.isFunction] at hkind
  · exact ⟨rfl, .inr ⟨_, rfl, .inl rfl⟩⟩

end Formula
