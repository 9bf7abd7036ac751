import Formula.Proofs.Parse.Rearrangement

/-!
Parenthesized groups. What has gone out before is never looked at again, and nothing
below an opening parenthesis on the stack is looked at before it is closed. So a group
goes by as it would alone: its tokens come out between those before it and those after
it, and how these come out does not depend on what the group is.
-/

namespace Formula

namespace Rpn

def State.behind (done : Array Token) (state : State) : State :=
  ⟨done ++ state.output, state.stack, state.last⟩

def State.above (base : List Token) (state : State) : State :=
  ⟨state.output, state.stack ++ base, state.last⟩

def State.complete (state : State) (tokens : List Token) : Except ParseError (List Token) := do
  (← tokens.foldlM State.feed state).finish

section Behind

variable (done : Array Token) (state : State)

theorem behind_append (output : Array Token) (more : List Token) :
    done ++ (output ++ more) = done ++ output ++ more := by
  apply Array.ext'
  simp

theorem place_behind (token : Token) :
    (state.behind done).place token = (state.place token).map (State.behind done) := by
  unfold State.place
  cases token.kind with
  | number => simp [State.behind, Except.map]
  | letter => simp [State.behind, Except.map]
  | func func => rfl
  | leftParen => rfl
  | rightParen =>
      simp only [State.behind]
      cases state.stack.dropWhile (!isOpening ·) with
      | nil => rfl
      | cons opening below => simp only [Except.map, State.behind, behind_append]
  | neg => simp only [Except.map, State.behind, behind_append]
  | binary op => simp only [Except.map, State.behind, behind_append]

theorem foldlM_behind (tokens : List Token) :
    tokens.foldlM State.feed (state.behind done) =
      (tokens.foldlM State.feed state).map (State.behind done) := by
  induction tokens generalizing state with
  | nil => rfl
  | cons token rest ih =>
      have hfeed : (state.behind done).feed token = (state.feed token).map (State.behind done) :=
        place_behind done state (resolve state.last token)
      rw [List.foldlM_cons, List.foldlM_cons, hfeed]
      cases state.feed token with
      | error error => rfl
      | ok next => exact ih next

theorem complete_behind (tokens : List Token) :
    (state.behind done).complete tokens = (state.complete tokens).map (done.toList ++ ·) := by
  rw [State.complete, State.complete, foldlM_behind]
  cases tokens.foldlM State.feed state with
  | error error => rfl
  | ok final =>
      change (final.behind done).finish = final.finish.map (done.toList ++ ·)
      rw [State.finish, State.finish, State.behind]
      cases final.stack.find? isOpening with
      | some opening => rfl
      | none => simp [Except.map]

end Behind

section Above

variable {opening : Token} (opens : isOpening opening = true) (base : List Token)

include opens

theorem place_above {state next : State} {token : Token} (h : state.place token = .ok next) :
    (state.above (opening :: base)).place token = .ok (next.above (opening :: base)) := by
  have hoperator := @cut_append Token (·.yieldsTo token) state.stack (opening :: base) <| by
    intro top member
    cases member
    rw [Bool.eq_false_iff]
    intro yields
    cases opens.symm.trans (isOpening_eq_false_of_yieldsTo yields)
  have hclosing := @cut_append Token (!isOpening ·) state.stack (opening :: base) <| by
    intro top member
    cases member
    rw [opens]
    rfl
  unfold State.place at h ⊢
  cases hkind : token.kind with
  | rightParen =>
      simp only [hkind, State.above, hclosing] at h ⊢
      cases hbelow : state.stack.dropWhile (!isOpening ·) with
      | nil =>
          rw [hbelow] at h
          cases h
      | cons closed below =>
          rw [hbelow] at h
          cases h
          rfl
  | neg =>
      simp only [hkind, State.above, hoperator] at h ⊢
      cases h
      rfl
  | binary op =>
      simp only [hkind, State.above, hoperator] at h ⊢
      cases h
      rfl
  | _ =>
      simp only [hkind] at h ⊢
      cases h
      rfl

theorem foldlM_above {tokens : List Token} {state final : State}
    (h : tokens.foldlM State.feed state = .ok final) :
    tokens.foldlM State.feed (state.above (opening :: base)) =
      .ok (final.above (opening :: base)) := by
  induction tokens generalizing state with
  | nil =>
      cases h
      rfl
  | cons token rest ih =>
      rw [List.foldlM_cons] at h ⊢
      cases hstep : state.feed token with
      | error error =>
          rw [hstep] at h
          cases h
      | ok next =>
          rw [hstep] at h
          have hfeed : (state.above (opening :: base)).feed token =
              .ok (next.above (opening :: base)) := place_above opens base hstep
          rw [hfeed]
          exact ih h

end Above

/-- All that matters of the token before is whether a minus sign is a negation after it. -/
theorem foldlM_congr {last last' : Option TokenKind}
    (h : isUnaryPosition last = isUnaryPosition last') {tokens : List Token}
    (nonempty : tokens ≠ []) (output : Array Token) (stack : List Token) :
    tokens.foldlM State.feed ⟨output, stack, last⟩ =
      tokens.foldlM State.feed ⟨output, stack, last'⟩ := by
  cases tokens with
  | nil => exact absurd rfl nonempty
  | cons token rest =>
      have hfeed : (⟨output, stack, last⟩ : State).feed token =
          (⟨output, stack, last'⟩ : State).feed token := by
        rw [State.feed, State.feed, resolve_congr h]
        rfl
      rw [List.foldlM_cons, List.foldlM_cons, hfeed]

theorem resolve_paren {token : Token} (paren : token.kind.isParen = true)
    (last : Option TokenKind) : resolve last token = token := by
  apply resolve_eq_self
  rintro ⟨kind, -⟩
  rw [kind] at paren
  cases paren

section Group

variable {opening closing : Token} (left : opening.kind = .leftParen)
  (right : closing.kind = .rightParen)

include left in
theorem feed_opening (state : State) :
    state.feed opening = .ok ⟨state.output, opening :: state.stack, some .leftParen⟩ := by
  rw [State.feed, resolve_paren (by rw [left]; rfl), State.place]
  simp only [left]

include right in
/-- What waits above an opening parenthesis goes out when it is closed. -/
theorem feed_closing {waiting : List Token} (inside : ∀ top ∈ waiting, isOpening top = false)
    (opens : isOpening opening = true) (output : Array Token) (below : List Token)
    (last : Option TokenKind) :
    (⟨output, waiting ++ opening :: below, last⟩ : State).feed closing =
      .ok ⟨output ++ waiting, below, some .rightParen⟩ := by
  have hcut : (waiting ++ opening :: below).takeWhile (!isOpening ·) = waiting ∧
      (waiting ++ opening :: below).dropWhile (!isOpening ·) = opening :: below := by
    apply cut
    · intro top member
      rw [inside top member]
      rfl
    · intro top member
      cases member
      rw [opens]
      rfl
  rw [State.feed, resolve_paren (by rw [right]; rfl), State.place]
  simp only [right, hcut]

include left right in
/-- A group goes by as its tokens would alone. -/
theorem foldlM_group {tokens rpn : List Token} (h : ofTokens tokens = .ok rpn) (state : State) :
    (opening :: (tokens ++ [closing])).foldlM State.feed state =
      .ok ⟨state.output ++ rpn, state.stack, some .rightParen⟩ := by
  obtain ⟨final, hfold, hwaiting, rfl⟩ := exists_foldlM_of_ofTokens h
  have opens := isOpening_of_leftParen left
  -- Alone the tokens begin after nothing and here after the parenthesis, which comes to the
  -- same: a minus sign is a negation after either.
  have hposition : isUnaryPosition (some .leftParen) = isUnaryPosition none := rfl
  have hbegin := foldlM_congr hposition (List.append_ne_nil_of_right_ne_nil tokens
    (List.cons_ne_nil closing [])) state.output (opening :: state.stack)
  have hstate : (⟨state.output, opening :: state.stack, none⟩ : State) =
      (State.start.above (opening :: state.stack)).behind state.output := by
    simp [State.start, State.above, State.behind]
  have hinside : tokens.foldlM State.feed
      ((State.start.above (opening :: state.stack)).behind state.output) =
        .ok ((final.above (opening :: state.stack)).behind state.output) := by
    rw [foldlM_behind, foldlM_above opens state.stack hfold]
    rfl
  have hclosing :=
    feed_closing right hwaiting opens (state.output ++ final.output) state.stack final.last
  rw [List.foldlM_cons, feed_opening left]
  change (tokens ++ [closing]).foldlM State.feed _ = _
  rw [hbegin, hstate, List.foldlM_append, hinside]
  change [closing].foldlM State.feed
    ⟨state.output ++ final.output, final.stack ++ opening :: state.stack, final.last⟩ = _
  have houtput : state.output ++ final.output ++ final.stack =
      state.output ++ (final.output.toList ++ final.stack) := by
    apply Array.ext'
    simp
  rw [List.foldlM_cons, hclosing, houtput]
  rfl

end Group

theorem complete_append (state : State) (first second : List Token) :
    state.complete (first ++ second) =
      (do (← first.foldlM State.feed state).complete second) := by
  rw [State.complete, List.foldlM_append]
  cases first.foldlM State.feed state with
  | error error => rfl
  | ok next => rfl

/-- What comes out before a group in these surroundings and what comes out after it. -/
def around (before after : List Token) : Except ParseError (List Token × List Token) := do
  let state ← before.foldlM State.feed State.start
  let rest ← (⟨#[], state.stack, some .rightParen⟩ : State).complete after
  return (state.output.toList, rest)

/-- What stands around a group does not depend on what the group is. -/
theorem ofTokens_around {opening closing : Token} (left : opening.kind = .leftParen)
    (right : closing.kind = .rightParen) (before after : List Token) {tokens rpn : List Token}
    (h : ofTokens tokens = .ok rpn) :
    ofTokens (before ++ [opening] ++ tokens ++ [closing] ++ after) =
      (around before after).map fun (first, last) => first ++ rpn ++ last := by
  have hsplit : before ++ [opening] ++ tokens ++ [closing] ++ after =
      before ++ ((opening :: (tokens ++ [closing])) ++ after) := by simp
  rw [hsplit, around]
  change State.start.complete _ = _
  rw [complete_append]
  cases before.foldlM State.feed State.start with
  | error error => rfl
  | ok state =>
      have hstate : (⟨state.output ++ rpn, state.stack, some .rightParen⟩ : State) =
          (⟨#[], state.stack, some .rightParen⟩ : State).behind (state.output ++ rpn) := by
        simp [State.behind]
      change state.complete _ = Except.map _
        ((⟨#[], state.stack, some .rightParen⟩ : State).complete after >>= _)
      rw [complete_append, foldlM_group left right h]
      change State.complete ⟨state.output ++ rpn, state.stack, some .rightParen⟩ after = _
      rw [hstate, complete_behind, Array.toList_appendList]
      cases (⟨#[], state.stack, some .rightParen⟩ : State).complete after with
      | error error => rfl
      | ok rest => rfl

end Rpn

/-- A parenthesized group is reordered on its own. Whatever stands around it, if it is
reordered there at all, then the same comes out before and after the group for every
group that can be put in its place, and between them what comes out of the group alone.
Parentheses around all tokens change nothing. -/
theorem ofTokens_group {opening closing : Token} (left : opening.kind = .leftParen)
    (right : closing.kind = .rightParen) :
    (∀ before after : List Token,
      (∃ tokens rpn whole, Rpn.ofTokens tokens = .ok rpn ∧
        Rpn.ofTokens (before ++ [opening] ++ tokens ++ [closing] ++ after) = .ok whole) →
      ∃ first last : List Token, ∀ tokens rpn, Rpn.ofTokens tokens = .ok rpn →
        Rpn.ofTokens (before ++ [opening] ++ tokens ++ [closing] ++ after) =
          .ok (first ++ rpn ++ last)) ∧
      ∀ tokens rpn, Rpn.ofTokens tokens = .ok rpn →
        Rpn.ofTokens ([opening] ++ tokens ++ [closing]) = .ok rpn := by
  constructor
  · rintro before after ⟨tokens, rpn, whole, htokens, hwhole⟩
    rw [Rpn.ofTokens_around left right before after htokens] at hwhole
    cases haround : Rpn.around before after with
    | error error =>
        rw [haround] at hwhole
        cases hwhole
    | ok surroundings =>
        refine ⟨surroundings.1, surroundings.2, fun tokens rpn htokens => ?_⟩
        rw [Rpn.ofTokens_around left right before after htokens, haround]
        rfl
  · intro tokens rpn htokens
    have haround := Rpn.ofTokens_around left right [] [] htokens
    rw [List.nil_append, List.append_nil] at haround
    rw [haround]
    change Except.ok ([] ++ rpn ++ []) = Except.ok rpn
    rw [List.nil_append, List.append_nil]

/-- In `2*(…)^3` the same comes out around `x+y` and around `-z`. -/
theorem ofTokens_group_factor :
    ∃ first last : List Token,
      Rpn.ofTokens [⟨⟨0, 1⟩, .number, ['2']⟩, ⟨⟨1, 2⟩, .binary .mul, ['*']⟩,
          ⟨⟨2, 3⟩, .leftParen, ['(']⟩, ⟨⟨3, 4⟩, .letter, ['x']⟩, ⟨⟨4, 5⟩, .binary .add, ['+']⟩,
          ⟨⟨5, 6⟩, .letter, ['y']⟩, ⟨⟨6, 7⟩, .rightParen, [')']⟩, ⟨⟨7, 8⟩, .binary .pow, ['^']⟩,
          ⟨⟨8, 9⟩, .number, ['3']⟩] =
        .ok (first ++ [⟨⟨3, 4⟩, .letter, ['x']⟩, ⟨⟨5, 6⟩, .letter, ['y']⟩,
          ⟨⟨4, 5⟩, .binary .add, ['+']⟩] ++ last) ∧
      Rpn.ofTokens [⟨⟨0, 1⟩, .number, ['2']⟩, ⟨⟨1, 2⟩, .binary .mul, ['*']⟩,
          ⟨⟨2, 3⟩, .leftParen, ['(']⟩, ⟨⟨3, 4⟩, .binary .sub, ['-']⟩, ⟨⟨4, 5⟩, .letter, ['z']⟩,
          ⟨⟨6, 7⟩, .rightParen, [')']⟩, ⟨⟨7, 8⟩, .binary .pow, ['^']⟩,
          ⟨⟨8, 9⟩, .number, ['3']⟩] =
        .ok (first ++ [⟨⟨4, 5⟩, .letter, ['z']⟩, ⟨⟨3, 4⟩, .neg, ['-']⟩] ++ last) := by
  obtain ⟨first, last, hgroup⟩ :=
    (@ofTokens_group ⟨⟨2, 3⟩, .leftParen, ['(']⟩ ⟨⟨6, 7⟩, .rightParen, [')']⟩ rfl rfl).1
      [⟨⟨0, 1⟩, .number, ['2']⟩, ⟨⟨1, 2⟩, .binary .mul, ['*']⟩]
      [⟨⟨7, 8⟩, .binary .pow, ['^']⟩, ⟨⟨8, 9⟩, .number, ['3']⟩]
      ⟨[⟨⟨4, 5⟩, .letter, ['z']⟩], _, _, rfl, rfl⟩
  exact ⟨first, last,
    hgroup [⟨⟨3, 4⟩, .letter, ['x']⟩, ⟨⟨4, 5⟩, .binary .add, ['+']⟩,
      ⟨⟨5, 6⟩, .letter, ['y']⟩] _ rfl,
    hgroup [⟨⟨3, 4⟩, .binary .sub, ['-']⟩, ⟨⟨4, 5⟩, .letter, ['z']⟩] _ rfl⟩

end Formula
