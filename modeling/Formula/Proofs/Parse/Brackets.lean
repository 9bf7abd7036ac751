import Formula.Proofs.Parse.Conservation

/-!
How parentheses match. What a parenthesis matches is said of the tokens alone: the two
stand around tokens whose own parentheses all match. The stack of the reordering holds
operations too, but of the parentheses on it every token makes what `track` makes of
them, whatever else is there. So tokens are reordered exactly if their parentheses
match, and otherwise the one is reported that is in the way: the first that closes
nothing, or else the last that nothing closes.
-/

namespace Formula

inductive Balanced : List Token → Prop
  | nil : Balanced []
  | other {token : Token} {rest : List Token} (kind : token.kind.isParen = false)
      (later : Balanced rest) : Balanced (token :: rest)
  | enclosed {opening closing : Token} {inner rest : List Token}
      (left : opening.kind = .leftParen) (inside : Balanced inner)
      (right : closing.kind = .rightParen) (later : Balanced rest) :
      Balanced (opening :: (inner ++ closing :: rest))

/-- A closing parenthesis that follows has one among these tokens to match. -/
def AwaitsClosing (before : List Token) : Prop :=
  ∃ outer opening inner, before = outer ++ opening :: inner ∧ opening.kind = .leftParen ∧
    Balanced inner

/-- An opening parenthesis that precedes has one among these tokens to match. -/
def BringsClosing (after : List Token) : Prop :=
  ∃ inner closing rest, after = inner ++ closing :: rest ∧ closing.kind = .rightParen ∧
    Balanced inner

structure Stray (tokens before : List Token) (closing : Token) (after : List Token) : Prop where
  tokens_eq : tokens = before ++ closing :: after
  kind : closing.kind = .rightParen
  unmatched : ¬ AwaitsClosing before

structure Unclosed (tokens before : List Token) (opening : Token) (after : List Token) : Prop where
  tokens_eq : tokens = before ++ opening :: after
  kind : opening.kind = .leftParen
  unmatched : ¬ BringsClosing after

theorem Balanced.append {first second : List Token} (h : Balanced first)
    (h' : Balanced second) : Balanced (first ++ second) := by
  induction h with
  | nil => exact h'
  | other kind later ih => exact .other kind ih
  | enclosed left inside right later ihi ihl =>
      rw [List.cons_append, List.append_assoc, List.cons_append]
      exact .enclosed left inside right ihl

/-- In balanced tokens every opening parenthesis is closed. -/
theorem Balanced.bringsClosing {tokens : List Token} (h : Balanced tokens)
    {before after : List Token} {opening : Token} (split : tokens = before ++ opening :: after)
    (kind : opening.kind = .leftParen) : BringsClosing after := by
  induction h generalizing before after with
  | nil => exact absurd split.symm (List.append_ne_nil_of_right_ne_nil _ (List.cons_ne_nil _ _))
  | @other token rest other later ih =>
      cases before with
      | nil =>
          obtain ⟨rfl, -⟩ := List.cons.inj split
          rw [kind] at other
          cases other
      | cons first before => exact ih (List.cons.inj split).2
  | @enclosed own closing inner rest left inside right later ihi ihl =>
      cases before with
      | nil =>
          obtain ⟨rfl, rfl⟩ := List.cons.inj split
          exact ⟨inner, closing, rest, rfl, right, inside⟩
      | cons first before =>
          have hclosing : opening ≠ closing := by
            rintro rfl
            cases kind.symm.trans right
          rcases List.append_eq_append_iff.mp (List.cons.inj split).2 with
            ⟨more, -, hrest⟩ | ⟨more, hinner, hafter⟩
          · cases more with
            | nil => exact absurd (List.cons.inj hrest).1.symm hclosing
            | cons _ more => exact ihl (List.cons.inj hrest).2
          · cases more with
            | nil => exact absurd (List.cons.inj hafter).1 hclosing
            | cons _ more =>
                obtain ⟨rfl, rfl⟩ := List.cons.inj hafter
                obtain ⟨deep, found, tail, rfl, hfound, hdeep⟩ := ihi hinner
                exact ⟨deep, found, tail ++ closing :: rest, by simp, hfound, hdeep⟩

/-- The parentheses that tokens leave open, innermost first. -/
inductive LeavesOpen : List Token → List Token → Prop
  | none {tokens : List Token} (balanced : Balanced tokens) : LeavesOpen tokens []
  | opened {outer inner unclosed : List Token} {opening : Token}
      (before : LeavesOpen outer unclosed) (kind : opening.kind = .leftParen)
      (inside : Balanced inner) : LeavesOpen (outer ++ opening :: inner) (opening :: unclosed)

theorem LeavesOpen.append {tokens unclosed more : List Token} (h : LeavesOpen tokens unclosed)
    (balanced : Balanced more) : LeavesOpen (tokens ++ more) unclosed := by
  cases h with
  | none own => exact .none (own.append balanced)
  | opened before kind inside =>
      rw [List.append_assoc, List.cons_append]
      exact .opened before kind (inside.append balanced)

theorem LeavesOpen.awaitsClosing {tokens unclosed : List Token} {opening : Token}
    (h : LeavesOpen tokens (opening :: unclosed)) : AwaitsClosing tokens := by
  cases h with
  | opened before kind inside => exact ⟨_, _, _, rfl, kind, inside⟩

namespace Rpn

def track (unclosed : List Token) (token : Token) : Except ParseError (List Token) :=
  match token.kind, unclosed with
  | .leftParen, unclosed => .ok (token :: unclosed)
  | .rightParen, [] => .error (.at token (.unbalancedParens false))
  | .rightParen, _ :: outer => .ok outer
  | _, unclosed => .ok unclosed

theorem track_opening {token : Token} (kind : token.kind = .leftParen) (unclosed : List Token) :
    track unclosed token = .ok (token :: unclosed) := by
  simp only [track, kind]

theorem track_closing_nil {token : Token} (kind : token.kind = .rightParen) :
    track [] token = .error (.at token (.unbalancedParens false)) := by
  simp only [track, kind]

theorem track_closing_cons {token : Token} (kind : token.kind = .rightParen) (opening : Token)
    (outer : List Token) : track (opening :: outer) token = .ok outer := by
  simp only [track, kind]

theorem track_other {token : Token} (kind : token.kind.isParen = false) (unclosed : List Token) :
    track unclosed token = .ok unclosed := by
  cases hkind : token.kind with
  | leftParen =>
      rw [hkind] at kind
      cases kind
  | rightParen =>
      rw [hkind] at kind
      cases kind
  | _ => simp only [track, hkind]

section Matching

variable {tokens unclosed : List Token}

/-- What is open before balanced tokens is open after them. -/
theorem foldlM_track_of_balanced (h : Balanced tokens) (unclosed : List Token) :
    tokens.foldlM track unclosed = .ok unclosed := by
  induction h generalizing unclosed with
  | nil => rfl
  | other kind later ih =>
      rw [List.foldlM_cons, track_other kind]
      exact ih unclosed
  | @enclosed opening closing inner rest left inside right later ihi ihl =>
      rw [List.foldlM_cons, track_opening left]
      change (inner ++ closing :: rest).foldlM track (opening :: unclosed) = _
      rw [List.foldlM_append, ihi]
      change (closing :: rest).foldlM track (opening :: unclosed) = _
      rw [List.foldlM_cons, track_closing_cons right]
      exact ihl unclosed

theorem leavesOpen_of_track {token : Token} {next : List Token} (h : LeavesOpen tokens unclosed)
    (step : track unclosed token = .ok next) : LeavesOpen (tokens ++ [token]) next := by
  cases hkind : token.kind with
  | leftParen =>
      rw [track_opening hkind] at step
      cases step
      exact .opened h hkind .nil
  | rightParen =>
      cases h with
      | none balanced =>
          rw [track_closing_nil hkind] at step
          cases step
      | @opened outer inner unclosed opening before kind inside =>
          rw [track_closing_cons hkind] at step
          cases step
          rw [List.append_assoc, List.cons_append]
          exact before.append (.enclosed kind inside hkind .nil)
  | _ =>
      have hother : token.kind.isParen = false := by rw [hkind]; rfl
      rw [track_other hother] at step
      cases step
      exact h.append (.other hother .nil)

/-- Only a closing parenthesis stops it, where nothing is open. -/
theorem track_eq_error {token : Token} {error : ParseError}
    (step : track unclosed token = .error error) :
    token.kind = .rightParen ∧ unclosed = [] ∧ error = .at token (.unbalancedParens false) := by
  unfold track at step
  split at step <;> cases step
  exact ⟨‹_›, rfl, rfl⟩

/-- The parentheses of some tokens either tell which are open after more tokens, or stop
at one of these that closes nothing. -/
theorem foldlM_track_cases (h : LeavesOpen tokens unclosed) (more : List Token) :
    (∃ final, more.foldlM track unclosed = .ok final ∧ LeavesOpen (tokens ++ more) final) ∨
      ∃ before closing after, more = before ++ closing :: after ∧
        closing.kind = .rightParen ∧ LeavesOpen (tokens ++ before) [] ∧
        more.foldlM track unclosed = .error (.at closing (.unbalancedParens false)) := by
  induction more generalizing tokens unclosed with
  | nil => exact .inl ⟨unclosed, rfl, by rwa [List.append_nil]⟩
  | cons token more ih =>
      rw [List.foldlM_cons]
      cases hstep : track unclosed token with
      | error error =>
          obtain ⟨kind, rfl, rfl⟩ := track_eq_error hstep
          exact .inr ⟨[], token, more, rfl, kind, by rwa [List.append_nil], rfl⟩
      | ok next =>
          have hone : tokens ++ token :: more = tokens ++ [token] ++ more := by simp
          rcases ih (leavesOpen_of_track h hstep) with
            ⟨final, hfold, hopen⟩ | ⟨before, closing, after, rfl, kind, hopen, hfold⟩
          · exact .inl ⟨final, hfold, by rwa [hone]⟩
          · refine .inr ⟨token :: before, closing, after, rfl, kind, ?_, hfold⟩
            rwa [List.append_assoc] at hopen

/-- Where a closing parenthesis is passed there was one for it to match. -/
theorem awaitsClosing_of_passed {before after final : List Token} {closing : Token}
    (kind : closing.kind = .rightParen)
    (h : (before ++ closing :: after).foldlM track [] = .ok final) : AwaitsClosing before := by
  rw [List.foldlM_append] at h
  rcases foldlM_track_cases (.none .nil) before with
    ⟨unclosed, hfold, hopen⟩ | ⟨_, _, _, _, _, _, hfold⟩
  · rw [hfold] at h
    change (closing :: after).foldlM track unclosed = .ok final at h
    cases unclosed with
    | nil =>
        rw [List.foldlM_cons, track_closing_nil kind] at h
        cases h
    | cons opening unclosed => exact hopen.awaitsClosing
  · rw [hfold] at h
    cases h

/-- Nothing waits for a closing parenthesis after balanced tokens. -/
theorem not_awaitsClosing_of_balanced (h : Balanced tokens) : ¬ AwaitsClosing tokens := by
  rintro ⟨outer, opening, inner, rfl, kind, inside⟩
  have hfold := foldlM_track_of_balanced h []
  rw [List.foldlM_append] at hfold
  cases houter : outer.foldlM track [] with
  | error error =>
      rw [houter] at hfold
      cases hfold
  | ok unclosed =>
      rw [houter] at hfold
      change (opening :: inner).foldlM track unclosed = .ok [] at hfold
      rw [List.foldlM_cons, track_opening kind] at hfold
      change inner.foldlM track (opening :: unclosed) = .ok [] at hfold
      rw [foldlM_track_of_balanced inside] at hfold
      cases hfold

/-- What closes something that is open before it closes too much on its own. -/
theorem exists_track_error_of_bringsClosing (h : BringsClosing tokens) :
    ∃ error, tokens.foldlM track [] = .error error := by
  obtain ⟨inner, closing, rest, rfl, kind, inside⟩ := h
  refine ⟨.at closing (.unbalancedParens false), ?_⟩
  rw [List.foldlM_append, foldlM_track_of_balanced inside]
  change (closing :: rest).foldlM track [] = _
  rw [List.foldlM_cons, track_closing_nil kind]
  rfl

/-- Balanced tokens close nothing that is open before them. -/
theorem not_bringsClosing_of_balanced (h : Balanced tokens) : ¬ BringsClosing tokens := by
  intro brings
  obtain ⟨error, hfails⟩ := exists_track_error_of_bringsClosing brings
  cases hfails.symm.trans (foldlM_track_of_balanced h [])

end Matching

def State.unclosed (state : State) : List Token := state.stack.filter isOpening

theorem filter_isOpening_of_waiting {above : List Token}
    (h : ∀ top ∈ above, isOpening top = false) : above.filter isOpening = [] := by
  rw [List.filter_eq_nil_iff]
  intro top member
  rw [h top member]
  exact Bool.false_ne_true

theorem Places.track_unclosed {state next : State} {token : Token} (h : Places state token next) :
    track state.unclosed token = .ok next.unclosed := by
  cases h with
  | operand kind => exact track_other (isParen_of_operand kind) _
  | opening kind =>
      rw [track_opening kind, State.unclosed, State.unclosed,
        List.filter_cons_of_pos (isOpening_of_leftParen kind)]
  | function kind =>
      have hother := not_paren_of_isFunction kind
      rw [track_other hother.1, State.unclosed, State.unclosed,
        List.filter_cons_of_neg (by rw [hother.2]; exact Bool.false_ne_true)]
  | @closing above below opening kind stack opens inside =>
      rw [State.unclosed, State.unclosed, stack, List.filter_append,
        filter_isOpening_of_waiting inside, List.filter_cons_of_pos opens, List.nil_append,
        track_closing_cons kind]
  | @operator above below kind stack out stay =>
      have hother := not_paren_of_isOperator kind
      have hwaiting : ∀ top ∈ above, isOpening top = false :=
        fun top member => isOpening_eq_false_of_yieldsTo (out top member)
      rw [track_other hother.1, State.unclosed, State.unclosed, stack, List.filter_append,
        filter_isOpening_of_waiting hwaiting, List.nil_append,
        List.filter_cons_of_neg (by rw [hother.2]; exact Bool.false_ne_true)]

/-- Only a closing parenthesis stops the reordering, where none is open on the stack. -/
theorem place_eq_error {state : State} {token : Token} {error : ParseError}
    (h : state.place token = .error error) :
    token.kind = .rightParen ∧ state.unclosed = [] ∧
      error = .at token (.unbalancedParens false) := by
  unfold State.place at h
  cases hkind : token.kind with
  | rightParen =>
      obtain ⟨above, below, hstack, habove, hbelow, hinside, -⟩ :=
        exists_cut (!isOpening ·) state.stack
      simp only [hkind, hbelow] at h
      cases below with
      | nil =>
          cases h
          rw [List.append_nil] at hstack
          refine ⟨rfl, ?_, rfl⟩
          rw [State.unclosed, hstack]
          exact filter_isOpening_of_waiting (by simpa using hinside)
      | cons opening below => cases h
  | _ =>
      simp only [hkind] at h
      cases h

theorem track_resolve (unclosed : List Token) (last : Option TokenKind) (token : Token) :
    track unclosed (resolve last token) = track unclosed token := by
  rcases resolve_cases last token with ⟨kind, -, counted⟩ | counted
  · rw [track_other (by rw [counted]; rfl), track_other (by rw [kind]; rfl)]
  · rw [counted]

/-- Of the parentheses on the stack a token makes what `track` makes of them. -/
theorem feed_unclosed (state : State) (token : Token) :
    (state.feed token).map State.unclosed = track state.unclosed token := by
  rw [← track_resolve state.unclosed state.last, State.feed]
  cases hplace : state.place (resolve state.last token) with
  | ok next => exact (places_of_place hplace).track_unclosed.symm
  | error error =>
      obtain ⟨kind, hnone, rfl⟩ := place_eq_error hplace
      rw [hnone, track_closing_nil kind]
      rfl

theorem foldlM_feed_unclosed (tokens : List Token) (state : State) :
    (tokens.foldlM State.feed state).map State.unclosed =
      tokens.foldlM track state.unclosed := by
  induction tokens generalizing state with
  | nil => rfl
  | cons token rest ih =>
      rw [List.foldlM_cons, List.foldlM_cons, ← feed_unclosed]
      cases state.feed token with
      | error error => rfl
      | ok next => exact ih next

/-- What waits at the end is let out unless a parenthesis is among it. -/
theorem State.finish_eq (state : State) :
    state.finish =
      match state.unclosed with
      | opening :: _ => .error (.at opening (.unbalancedParens true))
      | [] => .ok (state.output ++ state.stack).toList := by
  have hfind : state.unclosed.head? = state.stack.find? isOpening := List.head?_filter
  rw [State.finish, ← hfind]
  cases state.unclosed with
  | nil => rfl
  | cons opening rest => rfl

section Outcome

variable {tokens : List Token}

theorem ofTokens_of_track_error {error : ParseError} (h : tokens.foldlM track [] = .error error) :
    ofTokens tokens = .error error := by
  have hfold := (foldlM_feed_unclosed tokens State.start).trans h
  rw [ofTokens]
  cases hrun : tokens.foldlM State.feed State.start with
  | error own =>
      rw [hrun] at hfold
      cases hfold
      rfl
  | ok final =>
      rw [hrun] at hfold
      cases hfold

theorem exists_finish_of_track {unclosed : List Token}
    (h : tokens.foldlM track [] = .ok unclosed) :
    ∃ final : State, ofTokens tokens = final.finish ∧ final.unclosed = unclosed := by
  have hfold := (foldlM_feed_unclosed tokens State.start).trans h
  rw [ofTokens]
  cases hrun : tokens.foldlM State.feed State.start with
  | error own =>
      rw [hrun] at hfold
      cases hfold
  | ok final =>
      rw [hrun] at hfold
      exact ⟨final, rfl, Except.ok.inj hfold⟩

theorem ofTokens_of_track_cons {opening : Token} {outer : List Token}
    (h : tokens.foldlM track [] = .ok (opening :: outer)) :
    ofTokens tokens = .error (.at opening (.unbalancedParens true)) := by
  obtain ⟨final, hfinish, hopen⟩ := exists_finish_of_track h
  rw [hfinish, State.finish_eq, hopen]

theorem exists_ofTokens_of_balanced (h : Balanced tokens) : ∃ rpn, ofTokens tokens = .ok rpn := by
  obtain ⟨final, hfinish, hopen⟩ := exists_finish_of_track (foldlM_track_of_balanced h [])
  rw [hfinish, State.finish_eq, hopen]
  exact ⟨_, rfl⟩

end Outcome

end Rpn

section Faults

open Rpn

variable {tokens before after before' after' : List Token} {token token' : Token}

/-- Of two places in the same tokens the earlier one stands before the later one. -/
theorem exists_between (split : before ++ token :: after = before' ++ token' :: after')
    (earlier : before'.length < before.length) :
    ∃ between, before = before' ++ token' :: between ∧ after' = between ++ token :: after := by
  rcases List.append_eq_append_iff.mp split with ⟨more, rfl, -⟩ | ⟨more, rfl, hrest⟩
  · rw [List.length_append] at earlier
    omega
  · cases more with
    | nil =>
        rw [List.append_nil] at earlier
        omega
    | cons first between =>
        obtain ⟨rfl, rfl⟩ := List.cons.inj hrest
        exact ⟨between, rfl, rfl⟩

/-- After balanced tokens a closing parenthesis is the first that matches none. -/
theorem Stray.of_balanced (kind : token.kind = .rightParen) (balanced : Balanced before)
    (after : List Token) :
    Stray (before ++ token :: after) before token after ∧
      ∀ before' closing' after', Stray (before ++ token :: after) before' closing' after' →
        before.length ≤ before'.length := by
  refine ⟨⟨rfl, kind, not_awaitsClosing_of_balanced balanced⟩, ?_⟩
  intro before' closing' after' stray
  apply Nat.le_of_not_lt
  intro earlier
  obtain ⟨between, rfl, -⟩ := exists_between stray.tokens_eq earlier
  exact stray.unmatched
    (awaitsClosing_of_passed stray.kind (foldlM_track_of_balanced balanced []))

/-- Before balanced tokens an opening parenthesis is the last that matches none. -/
theorem Unclosed.of_balanced (before : List Token) (kind : token.kind = .leftParen)
    (balanced : Balanced after) :
    Unclosed (before ++ token :: after) before token after ∧
      ∀ before' opening' after', Unclosed (before ++ token :: after) before' opening' after' →
        before'.length ≤ before.length := by
  refine ⟨⟨rfl, kind, not_bringsClosing_of_balanced balanced⟩, ?_⟩
  intro before' opening' after' unclosed
  apply Nat.le_of_not_lt
  intro later
  obtain ⟨between, -, hafter⟩ := exists_between unclosed.tokens_eq.symm later
  exact unclosed.unmatched (balanced.bringsClosing hafter unclosed.kind)

theorem not_stray_of_track {final : List Token} (h : tokens.foldlM track [] = .ok final) :
    ¬ Stray tokens before token after := by
  rintro ⟨rfl, kind, unmatched⟩
  exact unmatched (awaitsClosing_of_passed kind h)

end Faults

/-- Tokens are reordered exactly if their parentheses match. If a closing one matches
none, the first such is reported, whatever follows it; if only opening ones match none,
the last of them is. -/
theorem ofTokens_parentheses (tokens : List Token) :
    ((∃ rpn, Rpn.ofTokens tokens = .ok rpn) ↔ Balanced tokens) ∧
      ((∃ before closing after, Stray tokens before closing after) →
        ∃ before closing after, Stray tokens before closing after ∧
          (∀ before' closing' after', Stray tokens before' closing' after' →
            before.length ≤ before'.length) ∧
          Rpn.ofTokens tokens = .error ⟨[closing.span], .unbalancedParens false⟩) ∧
      ((∀ before closing after, ¬ Stray tokens before closing after) →
        (∃ before opening after, Unclosed tokens before opening after) →
          ∃ before opening after, Unclosed tokens before opening after ∧
            (∀ before' opening' after', Unclosed tokens before' opening' after' →
              before'.length ≤ before.length) ∧
            Rpn.ofTokens tokens = .error ⟨[opening.span], .unbalancedParens true⟩) := by
  rcases Rpn.foldlM_track_cases (.none .nil) tokens with
    ⟨final, hfold, hopen⟩ | ⟨before, closing, after, rfl, kind, hopen, hfold⟩
  · cases hopen with
    | none balanced =>
        refine ⟨⟨fun _ => balanced, Rpn.exists_ofTokens_of_balanced⟩, ?_, ?_⟩
        · rintro ⟨before, closing, after, stray⟩
          exact absurd stray (not_stray_of_track hfold)
        · rintro - ⟨before, opening, after, unclosed⟩
          exact absurd (balanced.bringsClosing unclosed.tokens_eq unclosed.kind) unclosed.unmatched
    | @opened outer inner unclosed opening before kind inside =>
        have hfails := Rpn.ofTokens_of_track_cons hfold
        obtain ⟨hunclosed, hlast⟩ := Unclosed.of_balanced outer kind inside
        refine ⟨⟨?_, ?_⟩, ?_, fun _ _ => ⟨outer, opening, inner, hunclosed, hlast, hfails⟩⟩
        · rintro ⟨rpn, hrpn⟩
          cases hrpn.symm.trans hfails
        · intro balanced
          exact absurd (balanced.bringsClosing rfl kind) hunclosed.unmatched
        · rintro ⟨before, closing, after, stray⟩
          exact absurd stray (not_stray_of_track hfold)
  · have hfails := Rpn.ofTokens_of_track_error hfold
    cases hopen with
    | none balanced =>
        obtain ⟨hstray, hfirst⟩ := Stray.of_balanced kind balanced after
        refine ⟨⟨?_, ?_⟩, fun _ => ⟨before, closing, after, hstray, hfirst, hfails⟩, ?_⟩
        · rintro ⟨rpn, hrpn⟩
          cases hrpn.symm.trans hfails
        · intro whole
          obtain ⟨rpn, hrpn⟩ := Rpn.exists_ofTokens_of_balanced whole
          cases hrpn.symm.trans hfails
        · intro none
          exact absurd hstray (none before closing after)

/-- In `((x)` the first parenthesis is the one that matches none. -/
theorem ofTokens_parentheses_first_open :
    Unclosed [⟨⟨0, 1⟩, .leftParen, ['(']⟩, ⟨⟨1, 2⟩, .leftParen, ['(']⟩, ⟨⟨2, 3⟩, .letter, ['x']⟩,
        ⟨⟨3, 4⟩, .rightParen, [')']⟩] [] ⟨⟨0, 1⟩, .leftParen, ['(']⟩
        [⟨⟨1, 2⟩, .leftParen, ['(']⟩, ⟨⟨2, 3⟩, .letter, ['x']⟩, ⟨⟨3, 4⟩, .rightParen, [')']⟩] ∧
      Rpn.ofTokens [⟨⟨0, 1⟩, .leftParen, ['(']⟩, ⟨⟨1, 2⟩, .leftParen, ['(']⟩,
        ⟨⟨2, 3⟩, .letter, ['x']⟩, ⟨⟨3, 4⟩, .rightParen, [')']⟩] =
          .error ⟨[⟨0, 1⟩], .unbalancedParens true⟩ := by
  have hx : Balanced [⟨⟨2, 3⟩, .letter, ['x']⟩] := .other rfl .nil
  have hinner : Balanced [⟨⟨1, 2⟩, .leftParen, ['(']⟩, ⟨⟨2, 3⟩, .letter, ['x']⟩,
      ⟨⟨3, 4⟩, .rightParen, [')']⟩] :=
    .enclosed rfl hx rfl .nil
  obtain ⟨hunclosed, hlast⟩ :=
    @Unclosed.of_balanced _ ⟨⟨0, 1⟩, .leftParen, ['(']⟩ [] rfl hinner
  obtain ⟨before, opening, after, hown, hlatest, hfails⟩ :=
    (ofTokens_parentheses [⟨⟨0, 1⟩, .leftParen, ['(']⟩, ⟨⟨1, 2⟩, .leftParen, ['(']⟩,
      ⟨⟨2, 3⟩, .letter, ['x']⟩, ⟨⟨3, 4⟩, .rightParen, [')']⟩]).2.2
      (fun _ _ _ => not_stray_of_track rfl) ⟨_, _, _, hunclosed⟩
  obtain rfl : before = [] := List.eq_nil_of_length_eq_zero (Nat.le_zero.mp (hlast _ _ _ hown))
  cases hown.tokens_eq
  exact ⟨hunclosed, hfails⟩

end Formula
