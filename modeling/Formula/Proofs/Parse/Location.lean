import Formula.Proofs.Parse.Brackets
import Formula.Proofs.Parse.Faults
import Formula.Proofs.Parse.Rearrangement

/-!
Where the error of a text points. Reordering moves tokens, counts some minus signs as
negations and drops parentheses, but it leaves every token at its region; and the numbers
of a text can all be read. So what is reported of a text is a region of its tokens, or the
hull of some of them, and never a token that could not stand anywhere. Only a text of
nothing but matching parentheses has no token left to point at; then it is the whole text.
-/

namespace Formula

namespace Span

structure PointsInto (region : Span) (input : String) : Prop where
  start_lt_stop : region.start < region.stop
  stop_le : region.stop ≤ input.utf8ByteSize
  isValid_start : String.Pos.Raw.IsValid input ⟨region.start⟩
  isValid_stop : String.Pos.Raw.IsValid input ⟨region.stop⟩

structure HasEnds (region : Span) (tokens : List Token) : Prop where
  start : ∃ first ∈ tokens, first.span.start = region.start
  stop : ∃ last ∈ tokens, last.span.stop = region.stop

theorem pointsInto_whole {input : String} (nonempty : input ≠ "") :
    PointsInto ⟨0, input.utf8ByteSize⟩ input where
  start_lt_stop := by
    rw [Nat.pos_iff_ne_zero]
    exact fun hzero => nonempty (String.utf8ByteSize_eq_zero_iff.mp hzero)
  stop_le := Nat.le_refl _
  isValid_start := String.Pos.Raw.isValid_zero
  isValid_stop := String.Pos.Raw.isValid_rawEndPos

theorem IsHull.hasEnds {region : Span} {spans : List Span} {tokens : List Token}
    (h : IsHull region spans) (shown : ∀ span ∈ spans, ∃ token ∈ tokens, token.span = span) :
    HasEnds region tokens := by
  obtain ⟨⟨first, hfirst, hstart⟩, ⟨last, hlast, hstop⟩⟩ := h.exists_mem
  obtain ⟨firstToken, hfirstToken, rfl⟩ := shown first hfirst
  obtain ⟨lastToken, hlastToken, rfl⟩ := shown last hlast
  exact ⟨⟨firstToken, hfirstToken, hstart⟩, ⟨lastToken, hlastToken, hstop⟩⟩

/-- The hull of regions that point into a text points into it. -/
theorem IsHull.pointsInto {region : Span} {spans : List Span} {input : String}
    (h : IsHull region spans) (inside : ∀ span ∈ spans, PointsInto span input) :
    PointsInto region input := by
  obtain ⟨⟨first, hfirst, hstart⟩, ⟨last, hlast, hstop⟩⟩ := h.exists_mem
  have hle : first.stop ≤ region.stop :=
    (List.max?_eq_some_iff.mp h.stop).2 _ (List.mem_map_of_mem hfirst)
  have hlt := (inside first hfirst).start_lt_stop
  exact
    { start_lt_stop := by omega
      stop_le := hstop ▸ (inside last hlast).stop_le
      isValid_start := hstart ▸ (inside first hfirst).isValid_start
      isValid_stop := hstop ▸ (inside last hlast).isValid_stop }

end Span

section Tokens

variable {input : String} {token : Token}

theorem pointsInto_of_mem_tokenize (member : token ∈ tokenize input) :
    token.span.PointsInto input := by
  obtain ⟨-, lexeme, hlexeme, hspan, -⟩ := exists_lexeme_of_mem_tokenize member
  obtain ⟨hstart, hstop, -⟩ := Lexeme.extract_of_mem_scan hlexeme
  rw [hspan]
  exact
    { start_lt_stop := (Lexeme.tile_scanFrom none 0 input.toList).start_lt_stop _
        (List.mem_map_of_mem hlexeme)
      stop_le := hstop.le_rawEndPos
      isValid_start := hstart
      isValid_stop := hstop }

theorem Lexeme.kind_of_tokenKind?_number {lexeme : Lexeme} (h : lexeme.tokenKind? = some .number) :
    lexeme.kind = .number := by
  unfold Lexeme.tokenKind? at h
  cases hkind : lexeme.kind with
  | number => rfl
  | word =>
      rw [hkind] at h
      dsimp only at h
      split at h
      · cases h
      · split at h <;> cases h
  | _ =>
      rw [hkind] at h
      cases h

theorem exists_read_of_matches {text : List Char} (h : LexemeKind.number.Matches text) :
    ∃ value, Number.read? text = some value := by
  cases h with
  | whole whole => exact (Number.exists_read_of_isDigits whole).1
  | point whole all => exact (Number.exists_read_of_isDigits whole).2 _ all

/-- A number that stands in a text can be read. -/
theorem exists_read_of_mem_tokenize (member : token ∈ tokenize input)
    (kind : token.kind = .number) : ∃ value, Number.read? token.lexeme = some value := by
  obtain ⟨lexeme, hlexeme, htoken⟩ := List.mem_filterMap.mp member
  obtain ⟨own, hown, rfl⟩ := Option.map_eq_some_iff.mp htoken
  obtain rfl : own = .number := kind
  obtain ⟨_, _, _, _, _, hlongest⟩ := Lexeme.stands_of_mem_scanFrom hlexeme
  have hmatches := hlongest.matched
  rw [Lexeme.kind_of_tokenKind?_number hown] at hmatches
  exact exists_read_of_matches hmatches

end Tokens

namespace Rpn

variable {tokens rpn : List Token} {token : Token}

theorem exists_of_mem_resolved {last : Option TokenKind} (member : token ∈ resolved last tokens) :
    ∃ source ∈ tokens, ∃ before, token = resolve before source := by
  induction tokens generalizing last with
  | nil => cases member
  | cons first rest ih =>
      rcases List.mem_cons.mp member with rfl | member
      · exact ⟨first, List.mem_cons_self, last, rfl⟩
      · obtain ⟨source, hsource, hcounts⟩ := ih member
        exact ⟨source, List.mem_cons_of_mem _ hsource, hcounts⟩

/-- What comes out is no parenthesis, and is a token that went in but for its kind: a minus
sign may have become a negation. -/
theorem exists_source_of_mem (reordered : ofTokens tokens = .ok rpn) (member : token ∈ rpn) :
    token.kind.isParen = false ∧
      ∃ source ∈ tokens, token.span = source.span ∧ (token.kind = .number → token = source) := by
  obtain ⟨hresolved, hparen⟩ := List.mem_filter.mp
    ((conserves_of_ofTokens reordered).2.mem_iff.mp member)
  obtain ⟨source, hsource, before, rfl⟩ := exists_of_mem_resolved hresolved
  refine ⟨by simpa using hparen, source, hsource, ?_⟩
  rcases resolve_cases before source with ⟨-, -, counted⟩ | counted
  · refine ⟨?_, fun kind => ?_⟩
    · unfold resolve
      split <;> rfl
    · rw [counted] at kind
      cases kind
  · exact ⟨congrArg Token.span counted, fun _ => counted⟩

theorem isParen_resolve (last : Option TokenKind) (token : Token) :
    (resolve last token).kind.isParen = token.kind.isParen := by
  rcases resolve_cases last token with ⟨kind, -, counted⟩ | counted
  · rw [counted, kind]
    rfl
  · rw [counted]

theorem resolved_isParen_iff (last : Option TokenKind) (tokens : List Token) :
    (∀ token ∈ resolved last tokens, token.kind.isParen = true) ↔
      ∀ token ∈ tokens, token.kind.isParen = true := by
  induction tokens generalizing last with
  | nil => exact Iff.rfl
  | cons token rest ih =>
      rw [resolved, List.forall_mem_cons, List.forall_mem_cons, isParen_resolve, ih]

/-- Nothing comes out exactly if nothing but parentheses went in. -/
theorem ofTokens_eq_nil_iff (reordered : ofTokens tokens = .ok rpn) :
    rpn = [] ↔ ∀ token ∈ tokens, token.kind.isParen = true := by
  have hperm := (conserves_of_ofTokens reordered).2
  have hnil : rpn = [] ↔ (resolved none tokens).filter (!·.kind.isParen) = [] := by
    constructor
    · rintro rfl
      exact List.nil_perm.mp hperm
    · intro hfilter
      rw [hfilter] at hperm
      exact List.perm_nil.mp hperm
  rw [hnil, List.filter_eq_nil_iff, ← resolved_isParen_iff none tokens]
  simp only [Bool.not_eq_true', Bool.not_eq_false]

theorem balanced_of_ofTokens (reordered : ofTokens tokens = .ok rpn) : Balanced tokens := by
  rcases foldlM_track_cases (.none .nil) tokens with
    ⟨final, hfold, hopen⟩ | ⟨_, _, _, _, _, _, hfold⟩
  · cases hopen with
    | none balanced => exact balanced
    | opened before kind inside => cases reordered.symm.trans (ofTokens_of_track_cons hfold)
  · cases reordered.symm.trans (ofTokens_of_track_error hfold)

/-- Tokens that are not reordered have a parenthesis in the way. -/
theorem exists_paren_of_ofTokens {error : ParseError} (failed : ofTokens tokens = .error error) :
    ∃ token ∈ tokens, ∃ opening, error = ⟨[token.span], .unbalancedParens opening⟩ := by
  rcases foldlM_track_cases (.none .nil) tokens with
    ⟨final, hfold, hopen⟩ | ⟨before, closing, after, rfl, -, -, hfold⟩
  · cases hopen with
    | none balanced =>
        obtain ⟨rpn, hrpn⟩ := exists_ofTokens_of_balanced balanced
        cases hrpn.symm.trans failed
    | @opened outer inner unclosed opening before kind inside =>
        cases failed.symm.trans (ofTokens_of_track_cons hfold)
        exact ⟨opening, by simp, true, rfl⟩
  · cases failed.symm.trans (ofTokens_of_track_error hfold)
    exact ⟨closing, by simp, false, rfl⟩

end Rpn

/-- The error shows one region, the hull of regions of the tokens, and its cause is neither
that a token can stand nowhere nor that there is none. -/
structure ParseError.PointsAt (error : ParseError) (tokens : List Token) : Prop where
  region : ∃ region spans, error.spans = [region] ∧ Span.IsHull region spans ∧
    ∀ span ∈ spans, ∃ token ∈ tokens, token.span = span
  known : ∀ found, error.cause ≠ .unknownToken found
  nonempty : error.cause ≠ .emptyExpression

section Errors

variable {limit : Nat} {tokens rpn : List Token} {error : ParseError}

theorem ParseError.pointsAt_token {token : Token} {cause : ParseCause} (member : token ∈ tokens)
    (known : ∀ found, cause ≠ .unknownToken found) (nonempty : cause ≠ .emptyExpression) :
    PointsAt ⟨[token.span], cause⟩ tokens where
  region := by
    refine ⟨token.span, [token.span], rfl, Span.isHull_singleton token.span, ?_⟩
    intro span hspan
    obtain rfl := List.mem_singleton.mp hspan
    exact ⟨token, member, rfl⟩
  known := known
  nonempty := nonempty

/-- Among tokens that can stand somewhere a fault is that of an operation or of a depth. -/
theorem Fault.pointsAt {before : List Token} {token : Token} {cause : ParseCause}
    (fault : Fault limit before token cause) (plain : token.kind.isParen = false)
    (read : token.kind = .number → ∃ value, Number.read? token.lexeme = some value)
    (member : token ∈ rpn) : ParseError.PointsAt ⟨[token.span], cause⟩ rpn := by
  cases fault with
  | parenthesis kind =>
      rcases kind with kind | kind <;>
      · rw [kind] at plain
        cases plain
  | unreadable kind unread =>
      obtain ⟨value, hvalue⟩ := read kind
      cases unread.symm.trans hvalue
  | binary kind short => exact ParseError.pointsAt_token member nofun nofun
  | unary kind short => exact ParseError.pointsAt_token member nofun nofun
  | deep split lists high => exact ParseError.pointsAt_token member nofun nofun

theorem Expr.pointsAt_of_ofRpn (nonempty : rpn ≠ [])
    (plain : ∀ token ∈ rpn, token.kind.isParen = false)
    (read : ∀ token ∈ rpn, token.kind = .number →
      ∃ value, Number.read? token.lexeme = some value)
    (failed : Expr.ofRpn limit rpn = .error error) : error.PointsAt rpn := by
  rcases faultless_or_exists_fault limit rpn with
    sound | ⟨before, token, after, cause, rfl, earlier, fault⟩
  · have hpos := Expr.operandsLeft_pos_of_faultless sound nonempty
    by_cases hone : operandsLeft rpn = 1
    · obtain ⟨e, -, hbuilt⟩ := Expr.exists_ofRpn_of_faultless sound hone
      cases hbuilt.symm.trans failed
    · obtain ⟨first, rest, region, rfl, -, hull, htrailing⟩ :=
        Expr.ofRpn_of_trailing sound (by omega)
      cases htrailing.symm.trans failed
      refine ⟨⟨region, rest.map (·.span), rfl, hull, ?_⟩, nofun, nofun⟩
      intro span member
      obtain ⟨token, htoken, rfl⟩ := List.mem_map.mp member
      exact ⟨token, List.mem_append_right _ htoken, rfl⟩
  · cases (Expr.ofRpn_of_fault earlier fault after).symm.trans failed
    have hmember : token ∈ before ++ token :: after := by simp
    exact fault.pointsAt (plain token hmember) (read token hmember) hmember

theorem ParseError.PointsAt.of_sources (h : error.PointsAt rpn)
    (sources : ∀ token ∈ rpn, ∃ source ∈ tokens, token.span = source.span) :
    error.PointsAt tokens where
  region := by
    obtain ⟨region, spans, hspans, hull, hshown⟩ := h.region
    refine ⟨region, spans, hspans, hull, fun span member => ?_⟩
    obtain ⟨token, htoken, rfl⟩ := hshown span member
    obtain ⟨source, hsource, hspan⟩ := sources token htoken
    exact ⟨source, hsource, hspan.symm⟩
  known := h.known
  nonempty := h.nonempty

end Errors

/-- What is reported of a text shows some of its tokens, unless there is nothing but matching
parentheses in it: then the error is that it is empty. -/
theorem pointsAt_or_empty {limit : Nat} {input : String} {error : ParseError}
    (failed : parse limit input = .error error) :
    error.PointsAt (tokenize input) ∨
      (∀ token ∈ tokenize input, token.kind.isParen = true) ∧ Balanced (tokenize input) ∧
        error = ⟨[⟨0, input.utf8ByteSize⟩], .emptyExpression⟩ := by
  unfold parse at failed
  cases hreordered : Rpn.ofTokens (tokenize input) with
  | error own =>
      rw [hreordered] at failed
      cases failed
      obtain ⟨token, member, opening, rfl⟩ := Rpn.exists_paren_of_ofTokens hreordered
      exact .inl (ParseError.pointsAt_token member nofun nofun)
  | ok rpn =>
      rw [hreordered] at failed
      change (if rpn = [] then Except.error _ else Expr.ofRpn limit rpn) = .error error at failed
      split at failed
      · rename_i hempty
        cases failed
        exact .inr ⟨(Rpn.ofTokens_eq_nil_iff hreordered).mp hempty,
          Rpn.balanced_of_ofTokens hreordered, rfl⟩
      · rename_i hsome
        have hsource (token : Token) (member : token ∈ rpn) :=
          Rpn.exists_source_of_mem hreordered member
        have hpoints : error.PointsAt rpn := by
          refine Expr.pointsAt_of_ofRpn hsome ?_ ?_ failed
          · exact fun token member => (hsource token member).1
          · intro token member kind
            obtain ⟨-, source, hmember, -, hsame⟩ := hsource token member
            obtain rfl := hsame kind
            exact exists_read_of_mem_tokenize hmember kind
        refine .inl (hpoints.of_sources fun token member => ?_)
        obtain ⟨-, source, hmember, hspan, -⟩ := hsource token member
        exact ⟨source, hmember, hspan⟩

/-- Of nothing but matching parentheses nothing is left, whatever the limit. -/
theorem parse_of_parens (limit : Nat) {input : String}
    (parens : ∀ token ∈ tokenize input, token.kind.isParen = true)
    (balanced : Balanced (tokenize input)) :
    parse limit input = .error ⟨[⟨0, input.utf8ByteSize⟩], .emptyExpression⟩ := by
  obtain ⟨rpn, hreordered⟩ := Rpn.exists_ofTokens_of_balanced balanced
  obtain rfl := (Rpn.ofTokens_eq_nil_iff hreordered).mpr parens
  unfold parse
  rw [hreordered]
  rfl

/-- The error of a text that is not empty points into it: at one region, which is not empty
and begins and ends between characters. It is never that a token can stand nowhere. It is
that the text is empty exactly if nothing but matching parentheses is in it, and then it
points at the whole text; any other begins where a token begins and ends where one ends. -/
theorem parse_error_points_into (limit : Nat) (input : String) :
    (input ≠ "" → ∀ error, parse limit input = .error error →
      ∃ region, error.spans = [region] ∧ region.PointsInto input ∧
        (∀ found, error.cause ≠ .unknownToken found) ∧
        (error.cause = .emptyExpression → region = ⟨0, input.utf8ByteSize⟩) ∧
        (error.cause ≠ .emptyExpression → region.HasEnds (tokenize input))) ∧
      ((∃ error, parse limit input = .error error ∧ error.cause = .emptyExpression) ↔
        (∀ token ∈ tokenize input, token.kind.isParen = true) ∧ Balanced (tokenize input)) := by
  constructor
  · intro nonempty error failed
    rcases pointsAt_or_empty failed with ⟨hregion, hknown, hsome⟩ | ⟨-, -, rfl⟩
    · obtain ⟨region, spans, hspans, hull, hshown⟩ := hregion
      refine ⟨region, hspans, hull.pointsInto ?_, hknown, fun h => absurd h hsome, fun _ => ?_⟩
      · intro span member
        obtain ⟨token, htoken, rfl⟩ := hshown span member
        exact pointsInto_of_mem_tokenize htoken
      · exact hull.hasEnds hshown
    · exact ⟨_, rfl, Span.pointsInto_whole nonempty, nofun, fun _ => rfl, fun h => absurd rfl h⟩
  · constructor
    · rintro ⟨error, failed, hcause⟩
      rcases pointsAt_or_empty failed with hpoints | ⟨hparens, hbalanced, -⟩
      · exact absurd hcause hpoints.nonempty
      · exact ⟨hparens, hbalanced⟩
    · rintro ⟨parens, balanced⟩
      exact ⟨_, parse_of_parens limit parens balanced, rfl⟩

/-- In `(1 2)` the second number is too much. -/
theorem parse_error_points_into_second :
    parse 8 "(1 2)" = .error ⟨[⟨3, 4⟩], .trailingTokens⟩ ∧
      Span.PointsInto ⟨3, 4⟩ "(1 2)" ∧ Span.HasEnds ⟨3, 4⟩ (tokenize "(1 2)") := by
  have hfailed : parse 8 "(1 2)" = .error ⟨[⟨3, 4⟩], .trailingTokens⟩ := by decide +kernel
  obtain ⟨region, hspans, hinto, -, -, hends⟩ :=
    (parse_error_points_into 8 "(1 2)").1 (by decide) _ hfailed
  cases hspans
  exact ⟨hfailed, hinto, hends nofun⟩

end Formula
