import Formula.Parse
import Formula.Proofs.Expr.Leaves
import Formula.Proofs.Token.LetterCase

/-!
Letter case plays no part in expressions. The reordering never reads the text of a token,
so it does the same whatever the texts are. The building reads it where a number or a
letter becomes a leaf, and neither depends on case: digits and signs have none, the words
for infinity and for no number and the mark of an exponent are compared in small letters,
and a variable has the small letter for its name.
-/

namespace Formula

namespace Rpn

variable (f : List Char → List Char)

def State.mapLexeme (state : State) : State :=
  ⟨state.output.map (Token.mapLexeme f), state.stack.map (Token.mapLexeme f), state.last⟩

theorem resolve_mapLexeme (last : Option TokenKind) (token : Token) :
    resolve last (token.mapLexeme f) = (resolve last token).mapLexeme f := by
  unfold resolve
  by_cases h : token.kind = .binary .sub ∧ isUnaryPosition last = true
  · rw [if_pos h, if_pos (show (token.mapLexeme f).kind = _ ∧ _ from h)]
    rfl
  · rw [if_neg h, if_neg (show ¬ ((token.mapLexeme f).kind = _ ∧ _) from h)]

theorem map_output (output : Array Token) (tokens : List Token) :
    (output ++ tokens).map (Token.mapLexeme f) =
      output.map (Token.mapLexeme f) ++ tokens.map (Token.mapLexeme f) := by
  apply Array.toList_inj.mp
  simp

theorem place_mapLexeme (state : State) (token : Token) :
    (state.mapLexeme f).place (token.mapLexeme f) =
      (state.place token).map (State.mapLexeme f) := by
  have hkind : (token.mapLexeme f).kind = token.kind := rfl
  have hyields : (·.yieldsTo (token.mapLexeme f)) ∘ Token.mapLexeme f = (·.yieldsTo token) := rfl
  have hopening : (!isOpening ·) ∘ Token.mapLexeme f = (!isOpening ·) := rfl
  unfold State.place
  rw [hkind]
  cases token.kind with
  | number => simp only [State.mapLexeme, Except.map, Array.map_push]
  | letter => simp only [State.mapLexeme, Except.map, Array.map_push]
  | func func => rfl
  | leftParen => rfl
  | rightParen =>
      simp only [State.mapLexeme, List.dropWhile_map, List.takeWhile_map, hopening]
      cases state.stack.dropWhile (!isOpening ·) with
      | nil => rfl
      | cons opening below => simp only [List.map_cons, State.mapLexeme, Except.map, map_output]
  | binary op =>
      simp only [State.mapLexeme, List.dropWhile_map, List.takeWhile_map, hyields, Except.map,
        map_output, List.map_cons]
  | neg =>
      simp only [State.mapLexeme, List.dropWhile_map, List.takeWhile_map, hyields, Except.map,
        map_output, List.map_cons]

theorem foldlM_feed_mapLexeme (tokens : List Token) (state : State) :
    (tokens.map (Token.mapLexeme f)).foldlM State.feed (state.mapLexeme f) =
      (tokens.foldlM State.feed state).map (State.mapLexeme f) := by
  induction tokens generalizing state with
  | nil => rfl
  | cons token tokens ih =>
      have hfeed : (state.mapLexeme f).feed (token.mapLexeme f) =
          (state.feed token).map (State.mapLexeme f) := by
        rw [State.feed, State.feed, ← place_mapLexeme, ← resolve_mapLexeme]
        rfl
      rw [List.map_cons, List.foldlM_cons, List.foldlM_cons, hfeed]
      cases state.feed token with
      | error error => rfl
      | ok next => exact ih next

theorem finish_mapLexeme (state : State) :
    (state.mapLexeme f).finish = state.finish.map (List.map (Token.mapLexeme f)) := by
  have hopening : isOpening ∘ Token.mapLexeme f = isOpening := rfl
  unfold State.finish State.mapLexeme
  dsimp only
  rw [List.find?_map, hopening]
  cases state.stack.find? isOpening with
  | none => simp [Except.map]
  | some opening => rfl

/-- The reordering does the same with other texts. -/
theorem ofTokens_mapLexeme (tokens : List Token) :
    ofTokens (tokens.map (Token.mapLexeme f)) =
      (ofTokens tokens).map (List.map (Token.mapLexeme f)) := by
  have hstart : State.start.mapLexeme f = State.start := by
    simp [State.mapLexeme, State.start]
  have hrun := foldlM_feed_mapLexeme f tokens State.start
  rw [hstart] at hrun
  unfold ofTokens
  rw [hrun]
  cases tokens.foldlM State.feed State.start with
  | error error => rfl
  | ok state => exact finish_mapLexeme f state

end Rpn

namespace Number

theorem map_toLower_of_isDigit {digits : List Char} (h : ∀ c ∈ digits, c.isDigit = true) :
    digits.map Char.toLower = digits := by
  rw [List.map_congr_left (g := id), List.map_id]
  intro c member
  apply (Lexeme.toLower_cases c).resolve_right
  rintro ⟨halpha, -⟩
  have hdigit := Lexeme.isDigit_eq_false_of_isAlpha halpha
  rw [h c member] at hdigit
  cases hdigit

theorem splitSign_toLower (text : List Char) :
    splitSign (text.map Char.toLower) =
      ((splitSign text).1, (splitSign text).2.map Char.toLower) := by
  cases text with
  | nil => rfl
  | cons c rest =>
      by_cases hminus : c = '-'
      · subst hminus
        rfl
      · by_cases hplus : c = '+'
        · subst hplus
          rfl
        · have hminus' : c.toLower ≠ '-' := mt (Lexeme.toLower_eq_iff c rfl).mp hminus
          have hplus' : c.toLower ≠ '+' := mt (Lexeme.toLower_eq_iff c rfl).mp hplus
          rw [List.map_cons, splitSign_of_ne hminus' hplus', splitSign_of_ne hminus hplus,
            List.map_cons]

theorem readExponent?_toLower (text : List Char) :
    readExponent? (text.map Char.toLower) = readExponent? text := by
  cases text with
  | nil => rfl
  | cons mark text =>
      have hmark : mark.toLower.toLower = mark.toLower := Char.toLower_toLower_eq_toLower mark
      have hall : ((splitSign text).2.map Char.toLower).all Char.isDigit =
          (splitSign text).2.all Char.isDigit := by
        have hsame : Char.isDigit ∘ Char.toLower = Char.isDigit := funext Lexeme.isDigit_toLower
        rw [List.all_map, hsame]
      rw [List.map_cons, readExponent?, readExponent?]
      simp only [splitSign_toLower, hmark, hall, ne_eq, List.map_eq_nil_iff]
      split
      · rename_i h
        rw [map_toLower_of_isDigit (List.all_eq_true.mp h.2.2)]
      · rfl

/-- The digits and the point of a numeral have no case. -/
theorem readDecimal?_toLower (text : List Char) :
    readDecimal? (text.map Char.toLower) = readDecimal? text := by
  have hdigits : ∀ text : List Char, (text.takeWhile Char.isDigit).map Char.toLower =
      text.takeWhile Char.isDigit :=
    fun _ => map_toLower_of_isDigit (List.all_eq_true.mp List.all_takeWhile)
  have hwhole : (splitNumeral text).1.map Char.toLower = (splitNumeral text).1 := by
    rw [splitNumeral_fst, hdigits]
  have hpoint : (splitNumeral text).2.1.map Char.toLower = (splitNumeral text).2.1 := by
    obtain ⟨-, hsplit⟩ | ⟨rest, -, hsplit⟩ := splitNumeral_cases text
    · rw [hsplit, List.map_nil]
    · rw [hsplit, List.map_cons, hdigits]
      rfl
  simp only [readDecimal?, Lexeme.splitNumeral_toLower, hwhole, hpoint, readExponent?_toLower]

/-- A number is read from its text in any case. -/
theorem read?_toLower (text : List Char) : read? (text.map Char.toLower) = read? text := by
  have hword : ∀ text : List Char, (text.map Char.toLower).map Char.toLower =
      text.map Char.toLower := by
    intro text
    rw [List.map_map]
    exact List.map_congr_left fun c _ => Char.toLower_toLower_eq_toLower c
  simp only [read?, splitSign_toLower, hword, readDecimal?_toLower]

end Number

/-- A token becomes the same node in small letters. -/
theorem Operand.reduce_toLower (limit : Nat) (stack : List Operand) (token : Token) :
    reduce limit stack (token.mapLexeme (List.map Char.toLower)) = reduce limit stack token := by
  have hnumber : Number.read? (token.mapLexeme (List.map Char.toLower)).lexeme =
      Number.read? token.lexeme := Number.read?_toLower token.lexeme
  have hletter : Expr.ofLetter ((token.mapLexeme (List.map Char.toLower)).lexeme.headD '\x00') =
      .ofLetter (token.lexeme.headD '\x00') := by
    change Expr.ofLetter ((token.lexeme.map Char.toLower).headD '\x00') = _
    cases token.lexeme with
    | nil => rfl
    | cons c rest => exact congrArg Expr.var (Char.toLower_toLower_eq_toLower c)
  have hkind : (token.mapLexeme (List.map Char.toLower)).kind = token.kind := rfl
  unfold reduce
  rw [hkind, hnumber, hletter]
  -- What is left of the token is its region.
  rfl

theorem Expr.ofRpn_toLower (limit : Nat) (rpn : List Token) :
    ofRpn limit (rpn.map (Token.mapLexeme (List.map Char.toLower))) = ofRpn limit rpn := by
  rw [ofRpn, List.foldlM_map]
  simp only [Operand.reduce_toLower]
  rfl

/-- A text is read in small letters as it is in any. -/
theorem parse_toLower (limit : Nat) (input : String) :
    parse limit input.toLower = parse limit input := by
  unfold parse
  rw [tokenize_toLower, Rpn.ofTokens_mapLexeme, utf8ByteSize_toLower]
  cases Rpn.ofTokens (tokenize input) with
  | error error => rfl
  | ok rpn =>
      change (if rpn.map _ = [] then _ else _ : Except ParseError Expr) = _
      simp only [List.map_eq_nil_iff, Expr.ofRpn_toLower]
      rfl

/-- Two texts that differ in nothing but the case of letters have tokens of the same kinds
at the same places and the same unrecognized regions, and are read alike: as the same
expression, or with the same error at the same places. -/
theorem parse_ignores_case (s t : String) (h : s.toLower = t.toLower) :
    (tokenize s).map (fun token => (token.kind, token.span)) =
        (tokenize t).map (fun token => (token.kind, token.span)) ∧
      unrecognized s = unrecognized t ∧
      ∀ limit, parse limit s = parse limit t ∧
        ∀ a b, parse limit s = .ok a → parse limit t = .ok b → a.same b = true := by
  have hmarks : ∀ input : String,
      (tokenize input.toLower).map (fun token => (token.kind, token.span)) =
        (tokenize input).map (fun token => (token.kind, token.span)) := by
    intro input
    rw [tokenize_toLower, List.map_map]
    rfl
  refine ⟨?_, ?_, fun limit => ?_⟩
  · rw [← hmarks s, h, hmarks]
  · rw [← unrecognized_toLower s, h, unrecognized_toLower]
  · have hparse : parse limit s = parse limit t := by
      rw [← parse_toLower limit s, h, parse_toLower]
    refine ⟨hparse, fun a b ha hb => ?_⟩
    obtain rfl : a = b := Except.ok.inj (ha.symm.trans (hparse.trans hb))
    exact Expr.same_refl a

theorem parse_ignores_case_mixed :
    "2*SIN(x)".toLower = "2*sIn(X)".toLower ∧
      parse defaultDepth "2*SIN(x)" = parse defaultDepth "2*sIn(X)" := by
  have h : "2*SIN(x)".toLower = "2*sIn(X)".toLower := by
    apply String.toList_inj.mp
    rw [String.toLower, String.toLower, String.toList_map, String.toList_map]
    decide +kernel
  exact ⟨h, ((parse_ignores_case _ _ h).2.2 defaultDepth).1⟩

end Formula
