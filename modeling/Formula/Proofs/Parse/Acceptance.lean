import Formula.Parse
import Formula.Proofs.Parse.Alternation
import Formula.Proofs.Parse.Conservation
import Formula.Proofs.Parse.Listing
import Formula.Proofs.Parse.RoundTrip
import Formula.Proofs.Token.Tiling

/-!
Which tokens are accepted. Neither the reordering nor the building of the tree looks at
whether operands and operators take turns: the one only closes parentheses, the other only
counts. But a tree has one leaf more than it has operators, and if no operand begins right
after another has ended, no more leaves than that can come; so where the count is right, it
is right at every token, and the tokens take turns.
-/

namespace Formula

/-- A tree has one leaf more than it has operators. -/
theorem Postfix.countP_isLeaf {rpn : List Token} {e : Expr} (h : Postfix rpn e) :
    rpn.countP (·.kind.isLeaf) = rpn.countP (·.kind.isBinary) + 1 := by
  induction h with
  | number kind read => rw [List.countP_singleton, List.countP_singleton, kind]; rfl
  | letter kind => rw [List.countP_singleton, List.countP_singleton, kind]; rfl
  | neg kind operand ih =>
      rw [List.countP_append, List.countP_append, List.countP_singleton, List.countP_singleton,
        kind, ih]
      rfl
  | call kind operand ih =>
      rw [List.countP_append, List.countP_append, List.countP_singleton, List.countP_singleton,
        kind, ih]
      rfl
  | @binary left right token a b op kind lhs rhs ihl ihr =>
      have hleaf : [token].countP (·.kind.isLeaf) = 0 := by rw [List.countP_singleton, kind]; rfl
      have hbinary : [token].countP (·.kind.isBinary) = 1 := by
        rw [List.countP_singleton, kind]; rfl
      rw [List.countP_append, List.countP_append, List.countP_append, List.countP_append, hleaf,
        hbinary, ihl, ihr]
      omega

/-- Every number in the listing of a tree can be read. -/
theorem Postfix.exists_read {rpn : List Token} {e : Expr} (h : Postfix rpn e) {token : Token}
    (member : token ∈ rpn) (number : token.kind = .number) :
    ∃ value, Number.read? token.lexeme = some value := by
  have hlabel : token.label? ∈ e.labels.map some := by
    rw [← h.labels_eq]
    exact List.mem_map_of_mem member
  obtain ⟨label, -, hsome⟩ := List.mem_map.mp hlabel
  rw [Token.label?, number] at hsome
  obtain ⟨value, hvalue, -⟩ := Option.map_eq_some_iff.mp hsome.symm
  exact ⟨value, hvalue⟩

/-- Tokens list one tree only. -/
theorem Postfix.unique {rpn : List Token} {e e' : Expr} (h : Postfix rpn e)
    (h' : Postfix rpn e') : e = e' := by
  have hbuilt := (Expr.ofRpn_of_postfix h (max e.depth e'.depth)).1 (Nat.le_max_left _ _)
  have hbuilt' := (Expr.ofRpn_of_postfix h' (max e.depth e'.depth)).1 (Nat.le_max_right _ _)
  exact Except.ok.inj (hbuilt.symm.trans hbuilt')

namespace Rpn

theorem isUnaryPosition_some (kind : TokenKind) :
    isUnaryPosition (some kind) = !kind.endsOperand := by
  cases kind <;> rfl

theorem endsOperand_resolve (last : Option TokenKind) (token : Token) :
    (resolve last token).kind.endsOperand = token.kind.endsOperand := by
  rcases resolve_cases last token with ⟨kind, -, counted⟩ | counted
  · rw [counted, kind]
    rfl
  · rw [counted]

def due (last : Option TokenKind) : Nat := if isUnaryPosition last then 1 else 0

def Agrees (last : Option TokenKind) (tokens : List Token) : Prop :=
  isUnaryPosition last = false → ∀ first ∈ tokens.head?, first.kind.startsOperand = false

theorem agrees_of_isChain {token : Token} {rest : List Token} (last : Option TokenKind)
    (chain : (token :: rest).IsChain Token.Adjoins) :
    Agrees (some (resolve last token).kind) rest := by
  intro ended first member
  rw [isUnaryPosition_some, endsOperand_resolve, Bool.not_eq_false'] at ended
  exact (chain.rel_head? member).1 ended

/-- A token that begins no operand right after another makes no more leaves than are due. -/
theorem leaf_add_due_le {last : Option TokenKind} {token : Token} (plain : token.kind ≠ .neg)
    (agrees : isUnaryPosition last = false → token.kind.startsOperand = false) :
    (if (resolve last token).kind.isLeaf then 1 else 0) + due (some (resolve last token).kind) ≤
      (if (resolve last token).kind.isBinary then 1 else 0) + due last := by
  unfold due
  rcases resolve_cases last token with ⟨kind, position, counted⟩ | counted
  · rw [counted, position]
    decide
  · rw [counted, isUnaryPosition_some]
    cases hposition : isUnaryPosition last with
    | true =>
        cases token.kind <;>
          simp [TokenKind.isLeaf, TokenKind.isBinary, TokenKind.endsOperand]
    | false =>
        have hstarts := agrees hposition
        cases hkind : token.kind with
        | neg => exact absurd hkind plain
        | binary op => exact Nat.le_refl 1
        | rightParen => exact Nat.le_refl 0
        | _ =>
            rw [hkind] at hstarts
            cases hstarts

def Settles (last : Option TokenKind) (token : Token) : Prop :=
  (if (resolve last token).kind.isLeaf then 1 else 0) + due (some (resolve last token).kind) =
    (if (resolve last token).kind.isBinary then 1 else 0) + due last

/-- An operator takes an operand that is not there, unless it is a minus sign. -/
theorem Settles.minus {last : Option TokenKind} {token : Token} {op : BinaryOp}
    (h : Settles last token) (kind : token.kind = .binary op)
    (position : isUnaryPosition last = true) : token.kind = .binary .sub := by
  rcases resolve_cases last token with ⟨minus, -, -⟩ | counted
  · exact minus
  · unfold Settles due at h
    rw [counted, isUnaryPosition_some, kind, position] at h
    simp [TokenKind.isLeaf, TokenKind.isBinary, TokenKind.endsOperand] at h

/-- Nothing is closed before the operand that is due. -/
theorem Settles.ended {last : Option TokenKind} {token : Token} (h : Settles last token)
    (kind : token.kind = .rightParen) : isUnaryPosition last = false := by
  cases hposition : isUnaryPosition last with
  | false => rfl
  | true =>
      rcases resolve_cases last token with ⟨minus, -, -⟩ | counted
      · rw [kind] at minus
        cases minus
      · unfold Settles due at h
        rw [counted, isUnaryPosition_some, kind, hposition] at h
        cases h

theorem countP_isLeaf_le {last : Option TokenKind} {tokens : List Token}
    (plain : ∀ token ∈ tokens, token.kind ≠ .neg) (chain : tokens.IsChain Token.Adjoins)
    (agrees : Agrees last tokens) :
    (resolved last tokens).countP (·.kind.isLeaf) ≤
      (resolved last tokens).countP (·.kind.isBinary) + due last := by
  induction tokens generalizing last with
  | nil => exact Nat.zero_le _
  | cons token rest ih =>
      rw [List.forall_mem_cons] at plain
      have hfirst := leaf_add_due_le plain.1 fun ended => agrees ended token rfl
      have hrest := ih plain.2 chain.tail (agrees_of_isChain last chain)
      rw [resolved, List.countP_cons, List.countP_cons]
      omega

/-- A token that settles what is due takes its turn before tokens that do. -/
theorem alternates_cons {last : Option TokenKind} {depth : Nat} {token : Token}
    {rest : List Token} (plain : token.kind ≠ .neg)
    (chain : (token :: rest).IsChain Token.Adjoins) (agrees : Agrees last (token :: rest))
    (read : token.kind = .number → ∃ value, Number.read? token.lexeme = some value)
    (nested : Nested depth (token :: rest)) (settles : Settles last token)
    (later : ∀ depth, Nested depth rest → Alternates (!token.kind.endsOperand) depth rest) :
    Alternates (isUnaryPosition last) depth (token :: rest) := by
  have hexpected (starts : token.kind.startsOperand = true) : isUnaryPosition last = true := by
    cases hposition : isUnaryPosition last with
    | true => rfl
    | false => exact (agrees hposition token rfl).symm.trans starts
  have hother (other : token.kind.isParen = false) :
      Alternates (!token.kind.endsOperand) depth rest :=
    later depth ((nested_other other depth rest).mp nested)
  cases hkind : token.kind with
  | neg => exact absurd hkind plain
  | number =>
      obtain ⟨value, hvalue⟩ := read hkind
      rw [hkind] at hexpected hother
      rw [hexpected rfl]
      exact .number hkind hvalue (hother rfl)
  | letter =>
      rw [hkind] at hexpected hother
      rw [hexpected rfl]
      exact .letter hkind (hother rfl)
  | func func =>
      rw [hkind] at hexpected hother
      rw [hexpected rfl]
      refine .function hkind ?_ (hother rfl)
      intro next member
      exact (chain.rel_head? member).2 (by rw [hkind]; rfl)
  | leftParen =>
      rw [hkind] at hexpected later
      rw [hexpected rfl]
      exact .opening hkind (later (depth + 1) ((nested_opening hkind depth rest).mp nested))
  | rightParen =>
      rw [hkind] at later
      rw [settles.ended hkind]
      cases depth with
      | zero =>
          simp only [Nested, hkind] at nested
      | succ depth =>
          exact .closing hkind (later depth ((nested_closing hkind depth rest).mp nested))
  | binary op =>
      rw [hkind] at hother
      cases hposition : isUnaryPosition last with
      | false => exact .operator hkind (hother rfl)
      | true => exact .minus (settles.minus hkind hposition) (hother rfl)

/-- Where the count is right, the tokens take turns. -/
theorem alternates_of_countP {last : Option TokenKind} {depth : Nat} {tokens : List Token}
    (plain : ∀ token ∈ tokens, token.kind ≠ .neg) (chain : tokens.IsChain Token.Adjoins)
    (agrees : Agrees last tokens)
    (read : ∀ token ∈ tokens, token.kind = .number →
      ∃ value, Number.read? token.lexeme = some value)
    (nested : Nested depth tokens)
    (count : (resolved last tokens).countP (·.kind.isLeaf) =
      (resolved last tokens).countP (·.kind.isBinary) + due last) :
    Alternates (isUnaryPosition last) depth tokens := by
  induction tokens generalizing last depth with
  | nil =>
      unfold due at count
      cases hposition : isUnaryPosition last with
      | true =>
          rw [hposition] at count
          cases count
      | false =>
          cases nested
          exact .done
  | cons token rest ih =>
      rw [List.forall_mem_cons] at plain read
      rw [resolved, List.countP_cons, List.countP_cons] at count
      have hagrees := agrees_of_isChain last chain
      have hfirst := leaf_add_due_le plain.1 fun ended => agrees ended token rfl
      have hrest := countP_isLeaf_le plain.2 chain.tail hagrees
      -- No token makes up for another, so the count is right at the first and for the rest.
      have hsettles : Settles last token := by
        unfold Settles
        omega
      apply alternates_cons plain.1 chain agrees read.1 nested hsettles
      intro depth hnested
      have halternates := ih plain.2 chain.tail hagrees read.2 hnested (by omega)
      rwa [isUnaryPosition_some, endsOperand_resolve] at halternates

theorem mem_resolved {last : Option TokenKind} {tokens : List Token} {token : Token}
    (member : token ∈ tokens) (other : token.kind ≠ .binary .sub) :
    token ∈ resolved last tokens := by
  induction tokens generalizing last with
  | nil => cases member
  | cons first rest ih =>
      rw [resolved]
      rcases List.mem_cons.mp member with rfl | member
      · rw [resolve_of_ne last other]
        exact List.mem_cons_self
      · exact List.mem_cons_of_mem _ (ih member)

/-- A parenthesis is neither a leaf nor an operator. -/
theorem countP_filter_isParen {p : TokenKind → Bool} (tokens : List Token)
    (outside : ∀ kind, kind.isParen = true → p kind = false) :
    (tokens.filter (!·.kind.isParen)).countP (fun token => p token.kind) =
      tokens.countP fun token => p token.kind := by
  rw [List.countP_filter]
  apply List.countP_congr
  intro token _
  cases hparen : token.kind.isParen with
  | true => simp [outside _ hparen]
  | false => simp

/-- What is accepted takes turns, if no token stands where it may not right after another. -/
theorem alternates_of_postfix {tokens rpn : List Token} {e : Expr}
    (plain : ∀ token ∈ tokens, token.kind ≠ .neg) (chain : tokens.IsChain Token.Adjoins)
    (reordered : ofTokens tokens = .ok rpn) (lists : Postfix rpn e) :
    Alternates true 0 tokens := by
  obtain ⟨hnested, hperm⟩ := conserves_of_ofTokens reordered
  have hleaves : (resolved none tokens).countP (·.kind.isLeaf) =
      rpn.countP (·.kind.isLeaf) := by
    rw [hperm.countP_eq, countP_filter_isParen]
    intro kind hparen
    cases kind <;> first | rfl | cases hparen
  have hoperators : (resolved none tokens).countP (·.kind.isBinary) =
      rpn.countP (·.kind.isBinary) := by
    rw [hperm.countP_eq, countP_filter_isParen]
    intro kind hparen
    cases kind <;> first | rfl | cases hparen
  apply @alternates_of_countP none 0 tokens plain chain nofun ?_ hnested
  · rw [hleaves, hoperators]
    exact lists.countP_isLeaf
  · intro token member number
    apply lists.exists_read ?_ number
    rw [hperm.mem_iff, List.mem_filter]
    exact ⟨mem_resolved member (by rw [number]; nofun), by rw [number]; rfl⟩

/-- The tree of what is accepted is that of a derivation. -/
theorem reads_iff_derives {tokens : List Token} (plain : ∀ token ∈ tokens, token.kind ≠ .neg)
    (limit : Nat) (e : Expr) :
    ((∃ rpn, ofTokens tokens = .ok rpn ∧ Expr.ofRpn limit rpn = .ok e) ∧
        tokens.IsChain Token.Adjoins) ↔ Derives .sum tokens e ∧ e.depth ≤ limit := by
  constructor
  · rintro ⟨⟨rpn, hreordered, hbuilt⟩, hchain⟩
    obtain ⟨hlists, hheight⟩ := Expr.postfix_of_ofRpn hbuilt
    have halternates := alternates_of_postfix plain hchain hreordered hlists
    obtain ⟨derived, hderives⟩ := exists_derives_iff_alternates.mpr halternates
    obtain ⟨rpn', hreordered', hlists'⟩ := exists_ofTokens_of_derives hderives
    obtain rfl : rpn = rpn' := Except.ok.inj (hreordered.symm.trans hreordered')
    obtain rfl := hlists.unique hlists'
    rw [Expr.depth_eq_height]
    exact ⟨hderives, hheight⟩
  · rintro ⟨hderives, hdepth⟩
    obtain ⟨rpn, hreordered, hlists⟩ := exists_ofTokens_of_derives hderives
    exact ⟨⟨rpn, hreordered, (Expr.ofRpn_of_postfix hlists limit).1 hdepth⟩,
      (exists_derives_iff_alternates.mp ⟨e, hderives⟩).isChain⟩

end Rpn

/-- What is reordered into nothing lists no tree, so it needs no rule of its own. -/
theorem parse_eq_ok_iff (limit : Nat) (input : String) (e : Expr) :
    parse limit input = .ok e ↔
      ∃ rpn, Rpn.ofTokens (tokenize input) = .ok rpn ∧ Expr.ofRpn limit rpn = .ok e := by
  unfold parse
  cases hreordered : Rpn.ofTokens (tokenize input) with
  | error error => exact ⟨nofun, nofun⟩
  | ok rpn =>
      change (if rpn = [] then Except.error _ else Expr.ofRpn limit rpn) = .ok e ↔ _
      split
      · rename_i hempty
        refine ⟨nofun, ?_⟩
        rintro ⟨_, ⟨⟩, hbuilt⟩
        exact absurd hempty (Expr.postfix_of_ofRpn hbuilt).1.ne_nil
      · refine ⟨fun hbuilt => ⟨rpn, rfl, hbuilt⟩, ?_⟩
        rintro ⟨_, ⟨⟩, hbuilt⟩
        exact hbuilt

/-- Only sums are accepted, each with the tree of its derivation, as long as no operand
begins right after another has ended and no minus sign stands right after a function. Of
any other tokens of that kind an error is reported, and every sum is of that kind. No
text gives a negation, so this holds for all texts. -/
theorem accepted_iff_derives :
    (∀ tokens : List Token, (∀ token ∈ tokens, token.kind ≠ .neg) → ∀ limit e,
      (∃ rpn, Rpn.ofTokens tokens = .ok rpn ∧ Expr.ofRpn limit rpn = .ok e) ∧
          tokens.IsChain Token.Adjoins ↔ Derives .sum tokens e ∧ e.depth ≤ limit) ∧
      ∀ input limit e, parse limit input = .ok e ∧ (tokenize input).IsChain Token.Adjoins ↔
        Derives .sum (tokenize input) e ∧ e.depth ≤ limit := by
  refine ⟨fun tokens plain => Rpn.reads_iff_derives plain, ?_⟩
  intro input limit e
  rw [parse_eq_ok_iff]
  exact Rpn.reads_iff_derives (fun token member => (exists_lexeme_of_mem_tokenize member).1)
    limit e

theorem accepted_iff_derives_sum :
    Derives .sum [⟨⟨0, 1⟩, .number, ['2']⟩, ⟨⟨1, 2⟩, .binary .add, ['+']⟩,
      ⟨⟨2, 3⟩, .letter, ['x']⟩] (.add (.literal 2) (.var 'x')) := by
  have hbuilt : Expr.ofRpn 2 [⟨⟨0, 1⟩, .number, ['2']⟩, ⟨⟨2, 3⟩, .letter, ['x']⟩,
      ⟨⟨1, 2⟩, .binary .add, ['+']⟩] = .ok (.add (.literal 2) (.var 'x')) := by
    decide +kernel
  exact ((accepted_iff_derives.1 _ (by decide) 2 _).mp ⟨⟨_, rfl, hbuilt⟩, by decide⟩).1

/-- Other neighbours are not refused: `1 2 +` is read as a sum, and in `cos -x` the function
takes the operand before it. Neither can be derived. -/
theorem parse_neighbours :
    (parse defaultDepth "1 2 +" = .ok (.add (.literal 1) (.literal 2)) ∧
        ¬∃ e, Derives .sum (tokenize "1 2 +") e) ∧
      parse defaultDepth "2 + cos -x" =
          .ok (.add (.call .cos (.literal 2)) (.neg (.var 'x'))) ∧
        ¬∃ e, Derives .sum (tokenize "2 + cos -x") e := by
  have hchain {input : String} (h : ∃ e, Derives .sum (tokenize input) e) :
      (tokenize input).IsChain Token.Adjoins :=
    (exists_derives_iff_alternates.mp h).isChain
  refine ⟨⟨by decide +kernel, fun h => ?_⟩, by decide +kernel, fun h => ?_⟩
  · exact absurd (hchain h) (by decide +kernel)
  · exact absurd (hchain h) (by decide +kernel)

end Formula
