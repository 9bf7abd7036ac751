import Formula.Proofs.Parse.Brackets
import Formula.Proofs.Parse.Reordering
import Mathlib.Data.List.Chain

/-!
What waits on the stack after any tokens, whether they make an expression or not. An
operator is put there when it lets nothing more out, so it never lies on what would have
gone out before it; functions and opening parentheses lie on anything. No more than this
is carried from token to token (`State.Stacked`), and the order is read off it: between
two parentheses there are first operators, from the weakest to the strongest, and then
functions. Which parentheses wait does not depend on the operations among them: they are
those that match none of the tokens so far.
-/

namespace Formula

section Unmatched

open Rpn

theorem bringsClosing_iff_isOk (after : List Token) :
    BringsClosing after ↔ (after.foldlM track []).isOk = false := by
  constructor
  · intro brings
    obtain ⟨error, hfold⟩ := exists_track_error_of_bringsClosing brings
    rw [hfold]
    rfl
  · intro hfails
    rcases foldlM_track_cases (.none .nil) after with
      ⟨final, hfold, -⟩ | ⟨inner, closing, rest, rfl, kind, hopen, -⟩
    · rw [hfold] at hfails
      cases hfails
    · cases hopen with
      | none inside => exact ⟨inner, closing, rest, rfl, kind, inside⟩

instance : DecidablePred BringsClosing :=
  fun after => decidable_of_iff _ (bringsClosing_iff_isOk after).symm

def unmatched : List Token → List Token
  | [] => []
  | token :: rest =>
      if token.kind = .leftParen ∧ ¬ BringsClosing rest then token :: unmatched rest
      else unmatched rest

theorem exists_unclosed_cons_iff {token opening : Token} {rest : List Token} :
    (∃ before after, Unclosed (token :: rest) before opening after) ↔
      (opening = token ∧ token.kind = .leftParen ∧ ¬ BringsClosing rest) ∨
        ∃ before after, Unclosed rest before opening after := by
  constructor
  · rintro ⟨before, after, split, kind, free⟩
    cases before with
    | nil =>
        obtain ⟨rfl, rfl⟩ := List.cons.inj split
        exact .inl ⟨rfl, kind, free⟩
    | cons first before => exact .inr ⟨before, after, (List.cons.inj split).2, kind, free⟩
  · rintro (⟨rfl, kind, free⟩ | ⟨before, after, rfl, kind, free⟩)
    · exact ⟨[], rest, rfl, kind, free⟩
    · exact ⟨token :: before, after, rfl, kind, free⟩

theorem mem_unmatched_iff {tokens : List Token} {opening : Token} :
    opening ∈ unmatched tokens ↔ ∃ before after, Unclosed tokens before opening after := by
  induction tokens with
  | nil =>
      constructor
      · exact nofun
      · rintro ⟨before, after, unclosed⟩
        exact absurd unclosed.tokens_eq.symm
          (List.append_ne_nil_of_right_ne_nil before (List.cons_ne_nil opening after))
  | cons token rest ih =>
      rw [exists_unclosed_cons_iff, ← ih, unmatched]
      split
      · rename_i hown
        rw [List.mem_cons, and_iff_left hown]
      · rename_i hother
        rw [or_iff_right fun own => hother own.2]

theorem unmatched_of_balanced {tokens : List Token} (h : Balanced tokens) :
    unmatched tokens = [] := by
  rw [List.eq_nil_iff_forall_not_mem]
  intro opening member
  obtain ⟨before, after, unclosed⟩ := mem_unmatched_iff.mp member
  exact unclosed.unmatched (h.bringsClosing unclosed.tokens_eq unclosed.kind)

/-- An opening parenthesis that nothing closes keeps what follows it from closing anything
before it. -/
theorem bringsClosing_append_opening {opening : Token} {inner : List Token}
    (kind : opening.kind = .leftParen) (inside : Balanced inner) (outer : List Token) :
    BringsClosing (outer ++ opening :: inner) ↔ BringsClosing outer := by
  rw [bringsClosing_iff_isOk, bringsClosing_iff_isOk, List.foldlM_append]
  cases outer.foldlM track [] with
  | error error => rfl
  | ok unclosed =>
      change ((opening :: inner).foldlM track unclosed).isOk = false ↔ _
      rw [List.foldlM_cons, track_opening kind]
      change (inner.foldlM track (opening :: unclosed)).isOk = false ↔ _
      rw [foldlM_track_of_balanced inside]
      rfl

theorem unmatched_append_opening {opening : Token} {inner : List Token}
    (kind : opening.kind = .leftParen) (inside : Balanced inner) (outer : List Token) :
    unmatched (outer ++ opening :: inner) = unmatched outer ++ [opening] := by
  induction outer with
  | nil =>
      change unmatched (opening :: inner) = [opening]
      rw [unmatched, if_pos ⟨kind, not_bringsClosing_of_balanced inside⟩,
        unmatched_of_balanced inside]
  | cons token rest ih =>
      simp only [List.cons_append, unmatched, bringsClosing_append_opening kind inside, ih]
      split <;> rfl

theorem LeavesOpen.unmatched_eq {tokens unclosed : List Token} (h : LeavesOpen tokens unclosed) :
    unmatched tokens = unclosed.reverse := by
  induction h with
  | none balanced => exact unmatched_of_balanced balanced
  | opened before kind inside ih =>
      rw [unmatched_append_opening kind inside, ih, List.reverse_cons]

end Unmatched

namespace TokenKind

theorem rank_le_succ_reach (kind : TokenKind) : kind.precedence.rank ≤ kind.reach + 1 := by
  cases kind with
  | binary op => cases op <;> decide
  | func func => exact Nat.le_add_left 1 4
  | _ => decide

/-- Only powers and negations wait for others of their own rank. -/
theorem rank_le_reach {kind : TokenKind} (h : kind.precedence ≠ .power) :
    kind.precedence.rank ≤ kind.reach := by
  cases kind with
  | binary op =>
      cases op with
      | pow => exact absurd rfl h
      | _ => decide
  | func func => exact Nat.le_add_left 1 3
  | neg => exact absurd rfl h
  | _ => decide

end TokenKind

namespace Rpn

/-- The parentheses that wait are those that match none, innermost first. -/
theorem unclosed_eq_unmatched {tokens : List Token} {state : State}
    (h : tokens.foldlM State.feed State.start = .ok state) :
    state.unclosed = (unmatched tokens).reverse := by
  have hfold := foldlM_feed_unclosed tokens State.start
  rw [h] at hfold
  rcases foldlM_track_cases (.none .nil) tokens with
    ⟨unclosed, htrack, hopen⟩ | ⟨_, _, _, _, _, _, htrack⟩
  · obtain rfl : state.unclosed = unclosed := Except.ok.inj (hfold.trans htrack)
    have hreverse : unmatched tokens = state.unclosed.reverse := hopen.unmatched_eq
    rw [hreverse, List.reverse_reverse]
  · cases hfold.trans htrack

/-- The upper token can have been put on the lower one, which an operator would have let
out if that yielded to it. -/
def Bears (lower upper : Token) : Prop :=
  upper.kind.isOperator = true → lower.yieldsTo upper = false

structure State.Stacked (state : State) : Prop where
  waits : ∀ token ∈ state.stack, isOpening token = true ∨ token.kind.isOperation = true
  chain : state.stack.IsChain fun upper lower => Bears lower upper

theorem State.Stacked.push {state : State} (stacked : state.Stacked) {token : Token}
    (waits : isOpening token = true ∨ token.kind.isOperation = true)
    (other : token.kind.isOperator = false) (output : Array Token) (last : Option TokenKind) :
    State.Stacked ⟨output, token :: state.stack, last⟩ where
  waits := List.forall_mem_cons.mpr ⟨waits, stacked.waits⟩
  chain := stacked.chain.cons fun lower _ operator => by
    rw [other] at operator
    cases operator

theorem Places.stacked {state next : State} {token : Token} (h : Places state token next)
    (stacked : state.Stacked) : next.Stacked := by
  cases h with
  | operand kind => exact ⟨stacked.waits, stacked.chain⟩
  | opening kind =>
      exact stacked.push (.inl (isOpening_of_leftParen kind)) (by rw [kind]; rfl) _ _
  | function kind =>
      apply stacked.push (.inr (by rw [TokenKind.isOperation, kind, Bool.or_true]))
      cases hkind : token.kind with
      | func func => rfl
      | _ =>
          rw [hkind] at kind
          cases kind
  | @closing above below opening kind stack opens inside =>
      obtain ⟨hwaits, hchain⟩ := stacked
      have hbelow : below <:+ state.stack := ⟨above ++ [opening], by simp [stack]⟩
      exact ⟨fun top member => hwaits top (hbelow.subset member), hchain.suffix hbelow⟩
  | @operator above below kind stack out stay =>
      obtain ⟨hwaits, hchain⟩ := stacked
      have hbelow : below <:+ state.stack := ⟨above, stack.symm⟩
      have hoperation : token.kind.isOperation = true := by
        rw [TokenKind.isOperation, kind, Bool.true_or]
      constructor
      · intro top member
        rcases List.mem_cons.mp member with rfl | member
        · exact .inr hoperation
        · exact hwaits top (hbelow.subset member)
      · exact (hchain.suffix hbelow).cons fun lower member _ => stay lower member

theorem Takes.stacked {tokens : List Token} {state final : State} (h : Takes state tokens final)
    (stacked : state.Stacked) : final.Stacked := by
  induction h with
  | nil state => exact stacked
  | cons first later ih => exact ih (first.stacked stacked)

/-- What waits between two parentheses, from the bottom to the top: first operators, of
which none is weaker than those below it and only the strongest come more than once, and
then functions. -/
structure Layers (segment operators functions : List Token) : Prop where
  segment_eq : segment = operators ++ functions
  operator : ∀ token ∈ operators, token.kind.isOperator = true
  ordered : operators.Pairwise fun lower upper => lower.precedence.rank ≤ upper.precedence.rank
  once : ∀ level, level ≠ .power → (operators.map Token.precedence).count level ≤ 1
  function : ∀ token ∈ functions, token.kind.isFunction = true

/-- The lower token waits on when the upper one comes, an operator. This is transitive,
so of operators that lie on each other it holds at any distance. -/
def Stays (lower upper : Token) : Prop := lower.kind.reach < upper.precedence.rank

theorem Stays.rank_le {lower upper : Token} (h : Stays lower upper) :
    lower.precedence.rank ≤ upper.precedence.rank :=
  Nat.le_trans lower.kind.rank_le_succ_reach h

instance : Trans Stays Stays Stays where
  trans lower upper := Nat.lt_of_lt_of_le lower upper.rank_le

theorem Bears.stays {lower upper : Token} (h : Bears lower upper)
    (operator : upper.kind.isOperator = true) : Stays lower upper := by
  have hstays := h operator
  rwa [Bool.eq_false_iff, ne_eq, Token.yieldsTo_iff operator, Nat.not_le] at hstays

section Order

variable {segment : List Token}

/-- On a function lie only functions. -/
theorem isFunction_of_chain {first : Token} (function : first.kind.isFunction = true)
    (operation : ∀ token ∈ segment, token.kind.isOperation = true)
    (chain : (first :: segment).IsChain Bears) :
    ∀ token ∈ segment, token.kind.isFunction = true := by
  induction segment generalizing first with
  | nil => exact nofun
  | cons second rest ih =>
      obtain ⟨hbears, hchain⟩ := List.isChain_cons_cons.mp chain
      obtain ⟨hsecond, hrest⟩ := List.forall_mem_cons.mp operation
      -- Any operator would have let the function out.
      have hyields : first.yieldsTo second = true := by
        rw [Token.yieldsTo, function, Bool.true_or, Bool.true_or]
      have hother : second.kind.isOperator = false := by
        rw [Bool.eq_false_iff]
        intro operator
        cases hyields.symm.trans (hbears operator)
      have hown : second.kind.isFunction = true := by
        rwa [TokenKind.isOperation, hother, Bool.false_or] at hsecond
      exact List.forall_mem_cons.mpr ⟨hown, ih hown hrest hchain⟩

theorem pairwise_stays (operator : ∀ token ∈ segment, token.kind.isOperator = true)
    (chain : segment.IsChain Bears) : segment.Pairwise Stays := by
  have hstays : segment.IsChain Stays := by
    apply chain.imp_of_mem_imp
    intro lower upper _ member bears
    exact bears.stays (operator upper member)
  exact hstays.pairwise

theorem count_precedence_le_one (h : segment.Pairwise Stays) {level : Precedence}
    (weak : level ≠ .power) : (segment.map Token.precedence).count level ≤ 1 := by
  induction segment with
  | nil => exact Nat.zero_le 1
  | cons lower rest ih =>
      obtain ⟨hlower, hrest⟩ := List.pairwise_cons.mp h
      by_cases hlevel : lower.precedence = level
      · subst hlevel
        have hreach : lower.precedence.rank ≤ lower.kind.reach := TokenKind.rank_le_reach weak
        have hnone : lower.precedence ∉ rest.map Token.precedence := by
          intro member
          obtain ⟨upper, hmember, hupper⟩ := List.mem_map.mp member
          have hstays : lower.kind.reach < upper.precedence.rank := hlower upper hmember
          rw [hupper] at hstays
          omega
        rw [List.map_cons, List.count_cons_self, List.count_eq_zero.mpr hnone]
      · rw [List.map_cons, List.count_cons_of_ne hlevel]
        exact ih hrest

theorem exists_layers (operation : ∀ token ∈ segment, token.kind.isOperation = true)
    (chain : segment.IsChain Bears) :
    ∃ operators functions, Layers segment operators functions := by
  obtain ⟨operators, functions, rfl, -, -, hoperators, hfirst⟩ :=
    exists_cut (·.kind.isOperator) segment
  have hstays := pairwise_stays hoperators chain.left_of_append
  refine ⟨operators, functions, rfl, hoperators, hstays.imp Stays.rank_le,
    fun level weak => count_precedence_le_one hstays weak, ?_⟩
  cases functions with
  | nil => exact nofun
  | cons first rest =>
      obtain ⟨hown, hrest⟩ := List.forall_mem_cons.mp (List.forall_mem_append.mp operation).2
      have hfunction : first.kind.isFunction = true := by
        rwa [TokenKind.isOperation, hfirst first rfl, Bool.false_or] at hown
      exact List.forall_mem_cons.mpr
        ⟨hfunction, isFunction_of_chain hfunction hrest chain.right_of_append⟩

end Order

theorem State.Stacked.exists_layers {state : State} (stacked : state.Stacked)
    {segment : List Token} (member : segment ∈ state.stack.reverse.splitOnP isOpening) :
    ∃ operators functions, Layers segment operators functions := by
  obtain ⟨⟨before, after, hsplit⟩, hinside⟩ := exists_of_mem_splitOnP state.stack.reverse member
  have hchain := List.isChain_reverse.mpr stacked.chain
  rw [hsplit] at hchain
  apply Rpn.exists_layers
  · intro token htoken
    have hstack : token ∈ state.stack := by
      rw [← List.mem_reverse, hsplit]
      exact List.mem_append_left after (List.mem_append_right before htoken)
    rcases stacked.waits token hstack with opens | operation
    · rw [hinside token htoken] at opens
      cases opens
    · exact operation
  · exact hchain.left_of_append.right_of_append

end Rpn

/-- After any tokens that are taken without an error, cut what waits at its opening
parentheses: in each segment there are operators in the order of their strength, of which
only the strongest come more than once, and above them functions. As many opening
parentheses wait as match none of the tokens. -/
theorem stack_is_layered {tokens : List Token} {state : Rpn.State}
    (h : tokens.foldlM Rpn.State.feed Rpn.State.start = .ok state) :
    (∀ segment ∈ state.stack.reverse.splitOnP Rpn.isOpening,
        ∃ operators functions, Rpn.Layers segment operators functions) ∧
      state.stack.countP Rpn.isOpening = (unmatched tokens).length := by
  have hstart : Rpn.State.start.Stacked := ⟨nofun, .nil⟩
  have hstacked := (Rpn.takes_of_foldlM h).stacked hstart
  refine ⟨fun segment member => hstacked.exists_layers member, ?_⟩
  calc
    state.stack.countP Rpn.isOpening = state.unclosed.length := List.countP_eq_length_filter
    _ = (unmatched tokens).reverse.length := by rw [Rpn.unclosed_eq_unmatched h]
    _ = (unmatched tokens).length := List.length_reverse

/-- After `x-(y)*-2^(sin` operators of every strength wait below the parenthesis that is
still open, a power on a negation among them, and a function waits above it. -/
theorem stack_is_layered_open_group :
    ∃ (tokens : List Token) (state : Rpn.State),
      tokens.map Token.kind = [.letter, .binary .sub, .leftParen, .letter, .rightParen,
        .binary .mul, .binary .sub, .number, .binary .pow, .leftParen, .func .sin] ∧
      tokens.foldlM Rpn.State.feed Rpn.State.start = .ok state ∧
      (state.stack.reverse.splitOnP Rpn.isOpening).map (·.map Token.kind) =
        [[.binary .sub, .binary .mul, .neg, .binary .pow], [.func .sin]] ∧
      (∀ segment ∈ state.stack.reverse.splitOnP Rpn.isOpening,
        ∃ operators functions, Rpn.Layers segment operators functions) ∧
      1 = (unmatched tokens).length := by
  have h : [⟨⟨0, 1⟩, .letter, ['x']⟩, ⟨⟨1, 2⟩, .binary .sub, ['-']⟩, ⟨⟨2, 3⟩, .leftParen, ['(']⟩,
      ⟨⟨3, 4⟩, .letter, ['y']⟩, ⟨⟨4, 5⟩, .rightParen, [')']⟩, ⟨⟨5, 6⟩, .binary .mul, ['*']⟩,
      ⟨⟨6, 7⟩, .binary .sub, ['-']⟩, ⟨⟨7, 8⟩, .number, ['2']⟩, ⟨⟨8, 9⟩, .binary .pow, ['^']⟩,
      ⟨⟨9, 10⟩, .leftParen, ['(']⟩, ⟨⟨10, 13⟩, .func .sin, ['s', 'i', 'n']⟩].foldlM
        Rpn.State.feed Rpn.State.start =
      .ok ⟨#[⟨⟨0, 1⟩, .letter, ['x']⟩, ⟨⟨3, 4⟩, .letter, ['y']⟩, ⟨⟨7, 8⟩, .number, ['2']⟩],
        [⟨⟨10, 13⟩, .func .sin, ['s', 'i', 'n']⟩, ⟨⟨9, 10⟩, .leftParen, ['(']⟩,
          ⟨⟨8, 9⟩, .binary .pow, ['^']⟩, ⟨⟨6, 7⟩, .neg, ['-']⟩, ⟨⟨5, 6⟩, .binary .mul, ['*']⟩,
          ⟨⟨1, 2⟩, .binary .sub, ['-']⟩],
        some (.func .sin)⟩ := rfl
  obtain ⟨hlayers, hopen⟩ := stack_is_layered h
  exact ⟨_, _, rfl, h, rfl, hlayers, hopen⟩

end Formula
