import Formula.Parse.Rpn
import Formula.Proofs.Cut
import Formula.Proofs.Parse.Grammar
import Formula.Proofs.Parse.Postfix

/-!
The reordering of a phrase. While the tokens of a phrase go by, what stood on the stack
before stays there: the phrase has no operator that would let it out. What the phrase
leaves waiting stands above it, and goes out before any operator that may follow the
phrase, so what has gone out and what still waits together list the tree of the phrase.
-/

namespace Formula

/-- The greatest rank of an operator that lets a token of this kind out of the stack; 0
if none does. Functions go out before every operator, and operators that group to the
right wait for others of their own rank. -/
def TokenKind.reach : TokenKind → Nat
  | .number | .letter | .leftParen | .rightParen => 0
  | .binary .add | .binary .sub => 2
  | .binary .mul | .binary .div | .binary .pow | .neg => 3
  | .func _ => 4

theorem TokenKind.precedence_of_isOperator {kind : TokenKind} (h : kind.isOperator = true) :
    kind.precedence = .term ∨ kind.precedence = .factor ∨ kind.precedence = .power := by
  cases kind with
  | binary op => cases op <;> decide
  | neg => exact .inr (.inr rfl)
  | _ => cases h

theorem Token.yieldsTo_iff {top incoming : Token} (h : incoming.kind.isOperator = true) :
    top.yieldsTo incoming = true ↔ incoming.precedence.rank ≤ top.kind.reach := by
  have hclass : incoming.precedence = .term ∨ incoming.precedence = .factor ∨
      incoming.precedence = .power := TokenKind.precedence_of_isOperator h
  unfold Token.yieldsTo
  generalize incoming.precedence = level at hclass
  unfold Token.precedence Token.associativity
  generalize top.kind = kind
  cases kind with
  | func func =>
      rcases hclass with rfl | rfl | rfl <;>
        simp [TokenKind.isFunction, Precedence.rank, TokenKind.reach]
  | binary op => rcases hclass with rfl | rfl | rfl <;> cases op <;> decide
  | _ => rcases hclass with rfl | rfl | rfl <;> decide

namespace Phrase

/-- The least rank that an operator of the phrase can have outside of parentheses. -/
def level : Phrase → Nat
  | .sum => 2
  | .product => 3
  | .factor => 4
  | .base => 5

/-- The greatest rank of an operator before which all goes out that the phrase leaves
waiting. -/
def outlet : Phrase → Nat
  | .sum => 2
  | .product | .factor => 3
  | .base => 4

end Phrase

namespace Rpn

/-- An operator may stand in a phrase between two others: it lets out what the left one
leaves waiting and nothing of what is below, the right one does not let it out, and the
phrase leaves nothing behind that would wait for too long. -/
def Between (phrase left right : Phrase) (op : BinaryOp) : Prop :=
  phrase.level ≤ left.level ∧ phrase.level ≤ op.precedence.rank ∧
    op.precedence.rank ≤ left.outlet ∧ (TokenKind.binary op).reach < right.level ∧
    phrase.outlet ≤ right.outlet ∧ phrase.outlet ≤ (TokenKind.binary op).reach

instance (phrase left right : Phrase) (op : BinaryOp) : Decidable (Between phrase left right op) :=
  inferInstanceAs (Decidable (_ ∧ _))

def Holds (phrase : Phrase) (stack : List Token) : Prop :=
  ∀ top ∈ stack.head?, top.kind.reach < phrase.level

/-- From one state to the next a phrase has gone by that has the tree `e`: `done` has
gone out, `waiting` stands above the former stack, and together they list the tree. -/
structure Passes (phrase : Phrase) (state next : State) (e : Expr) (done waiting : List Token) :
    Prop where
  output : next.output = state.output ++ done
  stack : next.stack = waiting ++ state.stack
  last : isUnaryPosition next.last = false
  outlet : ∀ top ∈ waiting, phrase.outlet ≤ top.kind.reach
  lists : Postfix (done ++ waiting) e

theorem append_append (output : Array Token) (first second : List Token) :
    output ++ first ++ second = output ++ (first ++ second) := by
  apply Array.ext'
  simp

variable {phrase inner : Phrase} {state next : State} {token : Token} {e : Expr}
  {done waiting : List Token}

theorem Passes.weaken (h : Passes inner state next e done waiting)
    (houtlet : phrase.outlet ≤ inner.outlet) : Passes phrase state next e done waiting where
  output := h.output
  stack := h.stack
  last := h.last
  outlet := fun top member => Nat.le_trans houtlet (h.outlet top member)
  lists := h.lists

/-- An opening parenthesis does not wait for operators. -/
theorem Passes.isOpening_eq_false (h : Passes phrase state next e done waiting) {top : Token}
    (member : top ∈ waiting) : isOpening top = false := by
  have hreach := h.outlet top member
  rw [isOpening, beq_eq_false_iff_ne]
  intro hkind
  rw [hkind] at hreach
  cases phrase <;> exact absurd hreach (by decide)

/-- An operator lets out what is above, if it ranks low enough for that, and nothing of
what is below. -/
theorem place_operator {above below : List Token} (hoperator : token.kind.isOperator = true)
    (hstack : state.stack = above ++ below)
    (hout : ∀ top ∈ above, token.precedence.rank ≤ top.kind.reach)
    (hstay : ∀ top ∈ below.head?, top.kind.reach < token.precedence.rank) :
    state.place token = .ok ⟨state.output ++ above, token :: below, some token.kind⟩ := by
  have hcut : state.stack.takeWhile (·.yieldsTo token) = above ∧
      state.stack.dropWhile (·.yieldsTo token) = below := by
    rw [hstack]
    apply cut
    · intro top member
      rw [Token.yieldsTo_iff hoperator]
      exact hout top member
    · intro top member
      rw [Bool.eq_false_iff, ne_eq, Token.yieldsTo_iff hoperator, Nat.not_le]
      exact hstay top member
  unfold State.place
  cases hkind : token.kind with
  | binary op => simp only [hcut]
  | neg => simp only [hcut]
  | _ =>
      rw [hkind] at hoperator
      cases hoperator

theorem resolve_of_ne (last : Option TokenKind) (h : token.kind ≠ .binary .sub) :
    resolve last token = token := by
  rw [resolve, if_neg]
  rintro ⟨hminus, -⟩
  exact h hminus

theorem resolve_of_operand {last : Option TokenKind} (h : isUnaryPosition last = false) :
    resolve last token = token := by
  rw [resolve, if_neg]
  rintro ⟨-, hposition⟩
  rw [h] at hposition
  cases hposition

/-- After a phrase every operator is one between two operands. -/
theorem Passes.feed_operator (h : Passes phrase state next e done waiting) {op : BinaryOp}
    (kind : token.kind = .binary op) (hout : op.precedence.rank ≤ phrase.outlet)
    (hstay : ∀ top ∈ state.stack.head?, top.kind.reach < op.precedence.rank) :
    next.feed token = .ok ⟨next.output ++ waiting, token :: state.stack, some token.kind⟩ := by
  have hrank : token.precedence = op.precedence := by rw [Token.precedence, kind]; rfl
  rw [State.feed, resolve_of_operand h.last]
  apply place_operator (by rw [kind]; rfl) h.stack
  · intro top member
    rw [hrank]
    exact Nat.le_trans hout (h.outlet top member)
  · intro top member
    rw [hrank]
    exact hstay top member

def Crosses (phrase : Phrase) (tokens : List Token) (e : Expr) : Prop :=
  ∀ state : State, isUnaryPosition state.last = true → Holds phrase state.stack →
    ∃ next done waiting, tokens.foldlM State.feed state = .ok next ∧
      Passes phrase state next e done waiting

theorem Crosses.weaken {tokens : List Token} (h : Crosses inner tokens e)
    (hlevel : phrase.level ≤ inner.level) (houtlet : phrase.outlet ≤ inner.outlet) :
    Crosses phrase tokens e := by
  intro state hposition hholds
  have hheld : Holds inner state.stack := by
    intro top member
    exact Nat.lt_of_lt_of_le (hholds top member) hlevel
  obtain ⟨next, done, waiting, hfold, hpasses⟩ := h state hposition hheld
  exact ⟨next, done, waiting, hfold, hpasses.weaken houtlet⟩

theorem crosses_binary {left right : Phrase} {before after : List Token} {a b : Expr}
    {op : BinaryOp} (kind : token.kind = .binary op) (lhs : Crosses left before a)
    (rhs : Crosses right after b) (between : Between phrase left right op) :
    Crosses phrase (before ++ token :: after) (.binary op a b) := by
  obtain ⟨hleft, hrank, hout, hopen, hright, hown⟩ := between
  intro state hposition hholds
  have hheld : Holds left state.stack := by
    intro top member
    exact Nat.lt_of_lt_of_le (hholds top member) hleft
  obtain ⟨middle, done, waiting, hbefore, hpasses⟩ := lhs state hposition hheld
  have hfeed : middle.feed token =
      .ok ⟨middle.output ++ waiting, token :: state.stack, some token.kind⟩ := by
    apply hpasses.feed_operator kind hout
    intro top member
    exact Nat.lt_of_lt_of_le (hholds top member) hrank
  have hopened : isUnaryPosition (some token.kind) = true := by
    rw [kind]
    rfl
  have hwaits : Holds right (token :: state.stack) := by
    intro top member
    cases member
    rw [kind]
    exact hopen
  obtain ⟨next, done', waiting', hafter, hpasses'⟩ :=
    rhs ⟨middle.output ++ waiting, token :: state.stack, some token.kind⟩ hopened hwaits
  refine ⟨next, done ++ waiting ++ done', waiting' ++ [token], ?_, ?_⟩
  · rw [List.foldlM_append, hbefore]
    change List.foldlM State.feed middle (token :: after) = _
    rw [List.foldlM_cons, hfeed]
    exact hafter
  · constructor
    · rw [hpasses'.output, hpasses.output]
      rw [append_append, append_append, List.append_assoc]
    · rw [hpasses'.stack, List.append_assoc]
      rfl
    · exact hpasses'.last
    · intro top member
      rw [List.mem_append, List.mem_singleton] at member
      rcases member with member | rfl
      · exact Nat.le_trans hright (hpasses'.outlet top member)
      · rw [kind]
        exact hown
    · have hlists := Postfix.binary kind hpasses.lists hpasses'.lists
      simpa only [List.append_assoc] using hlists

/-- An operation that stands before its operand. -/
theorem crosses_operation {tokens : List Token} {opening : Token} {built : Expr}
    (operand : Crosses inner tokens e)
    (hfeed : ∀ state : State, isUnaryPosition state.last = true → Holds phrase state.stack →
      state.feed token = .ok ⟨state.output, opening :: state.stack, some opening.kind⟩)
    (hposition : isUnaryPosition (some opening.kind) = true)
    (hopen : opening.kind.reach < inner.level) (hinner : phrase.outlet ≤ inner.outlet)
    (hown : phrase.outlet ≤ opening.kind.reach)
    (hlists : ∀ rpn, Postfix rpn e → Postfix (rpn ++ [opening]) built) :
    Crosses phrase (token :: tokens) built := by
  intro state hstart hholds
  have hwaits : Holds inner (opening :: state.stack) := by
    intro top member
    cases member
    exact hopen
  obtain ⟨next, done, waiting, hfold, hpasses⟩ :=
    operand ⟨state.output, opening :: state.stack, some opening.kind⟩ hposition hwaits
  refine ⟨next, done, waiting ++ [opening], ?_, ?_⟩
  · rw [List.foldlM_cons, hfeed state hstart hholds]
    exact hfold
  · constructor
    · exact hpasses.output
    · rw [hpasses.stack, List.append_assoc]
      rfl
    · exact hpasses.last
    · intro top member
      rw [List.mem_append, List.mem_singleton] at member
      rcases member with member | rfl
      · exact Nat.le_trans hinner (hpasses.outlet top member)
      · exact hown
    · have hwhole := hlists _ hpasses.lists
      rwa [List.append_assoc] at hwhole

theorem crosses_negation {tokens : List Token} (kind : token.kind = .binary .sub)
    (operand : Crosses .factor tokens e) : Crosses .factor (token :: tokens) (.neg e) := by
  have hfeed (state : State) (hposition : isUnaryPosition state.last = true)
      (hholds : Holds .factor state.stack) : state.feed token =
        .ok ⟨state.output, token.reclassify .neg :: state.stack, some .neg⟩ := by
    have hplace : state.place (token.reclassify .neg) =
        .ok ⟨state.output ++ ([] : List Token), token.reclassify .neg :: state.stack,
          some .neg⟩ := by
      apply place_operator rfl rfl
      · intro top member
        cases member
      · exact hholds
    rw [State.feed, resolve, if_pos ⟨kind, hposition⟩, hplace]
    rfl
  apply crosses_operation operand hfeed rfl
  · exact Nat.lt_succ_self 3
  · exact Nat.le_refl 3
  · exact Nat.le_refl 3
  · intro rpn hlists
    exact .neg rfl hlists

theorem crosses_call {tokens : List Token} {func : Func} (kind : token.kind = .func func)
    (operand : Crosses .base tokens e) : Crosses .base (token :: tokens) (.call func e) := by
  have hreach : token.kind.reach = 4 := by
    rw [kind]
    rfl
  have hfeed (state : State) (_ : isUnaryPosition state.last = true)
      (_ : Holds .base state.stack) :
      state.feed token = .ok ⟨state.output, token :: state.stack, some token.kind⟩ := by
    rw [State.feed, resolve_of_ne state.last (by rw [kind]; exact nofun), State.place]
    simp only [kind]
  apply crosses_operation operand hfeed
  · rw [kind]
    rfl
  · rw [hreach]
    exact Nat.lt_succ_self 4
  · exact Nat.le_refl 4
  · rw [hreach]
    exact Nat.le_refl 4
  · intro rpn hlists
    exact .call kind hlists

theorem crosses_leaf (kind : token.kind = .number ∨ token.kind = .letter)
    (lists : Postfix [token] e) : Crosses .base [token] e := by
  intro state hposition hholds
  refine ⟨⟨state.output.push token, state.stack, some token.kind⟩, [token], [], ?_, ?_⟩
  · rw [List.foldlM_cons, State.feed]
    rcases kind with kind | kind <;>
    · rw [resolve_of_ne state.last (by rw [kind]; exact nofun), State.place]
      simp only [kind]
      rfl
  · constructor
    · apply Array.ext'
      simp
    · rfl
    · rcases kind with kind | kind <;>
      · rw [kind]
        rfl
    · intro top member
      cases member
    · exact lists

/-- What waits in parentheses goes out when they close. -/
theorem crosses_parentheses {tokens : List Token} {opening closing : Token}
    (left : opening.kind = .leftParen) (right : closing.kind = .rightParen)
    (content : Crosses .sum tokens e) : Crosses .base (opening :: (tokens ++ [closing])) e := by
  intro state hposition hholds
  have hopening : state.feed opening =
      .ok ⟨state.output, opening :: state.stack, some opening.kind⟩ := by
    rw [State.feed, resolve_of_ne state.last (by rw [left]; exact nofun), State.place]
    simp only [left]
  have hopened : isUnaryPosition (some opening.kind) = true := by
    rw [left]
    rfl
  have hwaits : Holds .sum (opening :: state.stack) := by
    intro top member
    cases member
    rw [left]
    exact Nat.zero_lt_two
  obtain ⟨middle, done, waiting, hfold, hpasses⟩ :=
    content ⟨state.output, opening :: state.stack, some opening.kind⟩ hopened hwaits
  have hcut : middle.stack.takeWhile (!isOpening ·) = waiting ∧
      middle.stack.dropWhile (!isOpening ·) = opening :: state.stack := by
    rw [hpasses.stack]
    apply cut
    · intro top member
      rw [hpasses.isOpening_eq_false member]
      rfl
    · intro top member
      cases member
      rw [isOpening, left]
      rfl
  have hclosing : middle.feed closing =
      .ok ⟨middle.output ++ waiting, state.stack, some closing.kind⟩ := by
    rw [State.feed, resolve_of_ne middle.last (by rw [right]; exact nofun), State.place]
    simp only [right, hcut]
  refine ⟨⟨middle.output ++ waiting, state.stack, some closing.kind⟩, done ++ waiting, [], ?_, ?_⟩
  · rw [List.foldlM_cons, hopening]
    change List.foldlM State.feed _ (tokens ++ [closing]) = _
    rw [List.foldlM_append, hfold]
    change List.foldlM State.feed middle [closing] = _
    rw [List.foldlM_cons, hclosing]
    rfl
  · constructor
    · rw [hpasses.output, append_append]
    · rfl
    · rw [right]
      rfl
    · intro top member
      cases member
    · rw [List.append_nil]
      exact hpasses.lists

theorem crosses_of_derives {tokens : List Token} (h : Derives phrase tokens e) :
    Crosses phrase tokens e := by
  induction h with
  | sum single ih => exact ih.weaken (Nat.le_succ 2) (Nat.le_succ 2)
  | term sign kind lhs rhs ihl ihr =>
      rcases sign with rfl | rfl <;>
      exact crosses_binary kind ihl ihr (by decide)
  | product single ih => exact ih.weaken (Nat.le_succ 3) (Nat.le_refl 3)
  | scale sign kind lhs rhs ihl ihr =>
      rcases sign with rfl | rfl <;>
      exact crosses_binary kind ihl ihr (by decide)
  | factor single ih => exact ih.weaken (Nat.le_succ 4) (Nat.le_succ 3)
  | negation kind operand ih => exact crosses_negation kind ih
  | power kind lhs rhs ihl ihr =>
      exact crosses_binary kind ihl ihr (by decide)
  | number kind read => exact crosses_leaf (.inl kind) (.number kind read)
  | letter kind => exact crosses_leaf (.inr kind) (.letter kind)
  | parentheses left right inner ih => exact crosses_parentheses left right ih
  | call kind operand ih => exact crosses_call kind ih

/-- A sum comes out in reverse Polish notation. -/
theorem exists_ofTokens_of_derives {tokens : List Token} (h : Derives .sum tokens e) :
    ∃ rpn, ofTokens tokens = .ok rpn ∧ Postfix rpn e := by
  have hempty : Holds .sum State.start.stack := by
    intro top member
    cases member
  obtain ⟨next, done, waiting, hfold, hpasses⟩ := crosses_of_derives h State.start rfl hempty
  have hstack : next.stack = waiting := hpasses.stack.trans (List.append_nil waiting)
  have hnone : next.stack.find? isOpening = none := by
    rw [hstack, List.find?_eq_none]
    intro top member
    rw [hpasses.isOpening_eq_false member]
    exact Bool.false_ne_true
  refine ⟨done ++ waiting, ?_, hpasses.lists⟩
  rw [ofTokens, hfold]
  change next.finish = _
  rw [State.finish, hnone, hstack, hpasses.output]
  simp [State.start]

end Rpn

/-- Every infix expression is given its tree: the tokens of a sum are reordered, and the
tree is built from them if the limit allows its depth; otherwise a token is reported,
with the limit. -/
theorem ofRpn_ofTokens_of_derives {tokens : List Token} {e : Expr}
    (h : Derives .sum tokens e) :
    ∃ rpn, Rpn.ofTokens tokens = .ok rpn ∧ ∀ limit,
      (e.depth ≤ limit → Expr.ofRpn limit rpn = .ok e) ∧
        (limit < e.depth → ∃ token ∈ rpn,
          Expr.ofRpn limit rpn = .error (.at token (.recursionLimitExceeded limit))) := by
  obtain ⟨rpn, htokens, hlists⟩ := Rpn.exists_ofTokens_of_derives h
  exact ⟨rpn, htokens, Expr.ofRpn_of_postfix hlists⟩

/-- `-2^x` is the negation of a power. -/
theorem ofRpn_ofTokens_negated_power :
    ∃ rpn, Rpn.ofTokens [⟨⟨0, 1⟩, .binary .sub, ['-']⟩, ⟨⟨1, 2⟩, .number, ['2']⟩,
        ⟨⟨2, 3⟩, .binary .pow, ['^']⟩, ⟨⟨3, 4⟩, .letter, ['x']⟩] = .ok rpn ∧
      Expr.ofRpn 3 rpn = .ok (.neg (.pow (.literal 2) (.var 'x'))) := by
  have hpower : Derives .factor ([⟨⟨1, 2⟩, .number, ['2']⟩] ++
      [⟨⟨2, 3⟩, .binary .pow, ['^']⟩, ⟨⟨3, 4⟩, .letter, ['x']⟩])
      (.pow (.literal 2) (.var 'x')) :=
    .power rfl (.number rfl (by decide +kernel)) (.factor (.letter rfl))
  have hsum := Derives.sum (.product (@Derives.negation _ ⟨⟨0, 1⟩, .binary .sub, ['-']⟩ _ rfl hpower))
  obtain ⟨rpn, htokens, htree⟩ := ofRpn_ofTokens_of_derives hsum
  have hdepth : (Expr.neg (.pow (.literal 2) (.var 'x'))).depth ≤ 3 := by
    rw [Expr.depth_eq_height]
    exact Nat.le_refl 3
  exact ⟨rpn, htokens, (htree 3).1 hdepth⟩

end Formula
