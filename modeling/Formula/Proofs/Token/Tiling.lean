import Formula.Proofs.Token.LongestMatch
import Mathlib.Data.String.Basic

/-!
Every byte of a text is accounted for. The pieces of a text are not empty and put together
are the text, so the regions of the lexemes tile it. A lexeme is space, or is a token, or
is unrecognized, and only one of the three; so the regions of the three kinds share out
the tiles, and each kind comes in the order of the text.
-/

namespace Formula

namespace Span

/-- The regions follow one another from one offset to another without a gap, and none is
empty. -/
def Tile : Nat → Nat → List Span → Prop
  | start, stop, [] => start = stop
  | start, stop, span :: rest => span.start = start ∧ start < span.stop ∧ Tile span.stop stop rest

def Before (a b : Span) : Prop := a.stop ≤ b.start

def Apart (a b : Span) : Prop := a.Before b ∨ b.Before a

theorem Tile.le_start {start stop : Nat} {spans : List Span} (h : Tile start stop spans) :
    ∀ span ∈ spans, start ≤ span.start := by
  induction spans generalizing start with
  | nil => simp
  | cons first rest ih =>
      obtain ⟨hfirst, hlonger, hrest⟩ := h
      intro span member
      rcases List.mem_cons.mp member with rfl | member
      · exact Nat.le_of_eq hfirst.symm
      · exact Nat.le_trans (Nat.le_of_lt hlonger) (ih hrest span member)

theorem Tile.start_lt_stop {start stop : Nat} {spans : List Span} (h : Tile start stop spans) :
    ∀ span ∈ spans, span.start < span.stop := by
  induction spans generalizing start with
  | nil => simp
  | cons first rest ih =>
      obtain ⟨rfl, hlonger, hrest⟩ := h
      exact List.forall_mem_cons.mpr ⟨hlonger, ih hrest⟩

theorem Tile.pairwise_before {start stop : Nat} {spans : List Span} (h : Tile start stop spans) :
    spans.Pairwise Before := by
  induction spans generalizing start with
  | nil => exact .nil
  | cons first rest ih =>
      obtain ⟨-, -, hrest⟩ := h
      exact .cons (fun span member => hrest.le_start span member) (ih hrest)

end Span

namespace Lexeme

theorem byteLength_eq_utf8Len (text : List Char) : byteLength text = String.utf8Len text := by
  induction text with
  | nil => rfl
  | cons c text ih => rw [byteLength, ih, String.utf8Len_cons, Nat.add_comm]

theorem byteLength_append (first second : List Char) :
    byteLength (first ++ second) = byteLength first + byteLength second := by
  simp only [byteLength_eq_utf8Len, String.utf8Len_append]

theorem byteLength_toList (input : String) : byteLength input.toList = input.utf8ByteSize := by
  rw [byteLength_eq_utf8Len, ← String.utf8ByteSize_ofList, String.ofList_toList]

theorem byteLength_pos {text : List Char} (h : text ≠ []) : 0 < byteLength text := by
  cases text with
  | nil => exact absurd rfl h
  | cons c text => exact Nat.add_pos_left c.utf8Size_pos _

theorem tile_scanFrom (before : Option Char) (offset : Nat) (text : List Char) :
    Span.Tile offset (offset + byteLength text) ((scanFrom before offset text).map (·.span)) := by
  fun_induction scanFrom before offset text with
  | case1 => rfl
  | case2 before offset c rest piece stop ih =>
      have hlength : offset + byteLength (c :: rest) = stop + byteLength piece.2.2 := by
        rw [← splitFirst_append c rest, byteLength_append, ← Nat.add_assoc]
      rw [hlength]
      refine ⟨rfl, ?_, ih⟩
      exact Nat.lt_add_of_pos_right (byteLength_pos (splitFirst_ne_nil c rest))

/-- The region of a lexeme begins after the text before it and is as long as its text,
which is the longest match there. -/
def Stands (text : List Char) (offset : Nat) (lexeme : Lexeme) : Prop :=
  ∃ before after, text = before ++ lexeme.text ++ after ∧
    lexeme.span.start = offset + byteLength before ∧
    lexeme.span.stop = lexeme.span.start + byteLength lexeme.text ∧
    lexeme.kind.LongestMatch lexeme.text after

theorem stands_of_mem_scanFrom {before : Option Char} {offset : Nat} {text : List Char}
    {lexeme : Lexeme} (member : lexeme ∈ scanFrom before offset text) :
    Stands text offset lexeme := by
  fun_induction scanFrom before offset text with
  | case1 => cases member
  | case2 before offset c rest piece stop ih =>
      have happend : piece.2.1 ++ piece.2.2 = c :: rest := splitFirst_append c rest
      rcases List.mem_cons.mp member with rfl | member
      · exact ⟨[], piece.2.2, happend.symm, rfl, rfl, longestMatch_splitFirst c rest⟩
      · obtain ⟨earlier, after, htext, hstart, hstop⟩ := ih member
        refine ⟨piece.2.1 ++ earlier, after, ?_, ?_, hstop⟩
        · rw [← happend, htext]
          simp only [List.append_assoc]
        · rw [hstart, byteLength_append, Nat.add_assoc]

/-- A lexeme of a text begins and ends between characters, and its text is what the input
holds there. -/
theorem extract_of_mem_scan {input : String} {lexeme : Lexeme} (member : lexeme ∈ scan input) :
    String.Pos.Raw.IsValid input ⟨lexeme.span.start⟩ ∧
      String.Pos.Raw.IsValid input ⟨lexeme.span.stop⟩ ∧
      String.Pos.Raw.extract input ⟨lexeme.span.start⟩ ⟨lexeme.span.stop⟩ =
        String.ofList lexeme.text := by
  obtain ⟨before, after, htext, hstart, hstop, -⟩ := stands_of_mem_scanFrom member
  have hinput : input = String.ofList (before ++ lexeme.text ++ after) := by
    rw [← htext, String.ofList_toList]
  rw [Nat.zero_add, byteLength_eq_utf8Len] at hstart
  rw [hstart, byteLength_eq_utf8Len] at hstop
  rw [hstart, hstop, hinput]
  refine ⟨?_, ?_, String.extract_of_valid before lexeme.text after⟩
  · apply String.Pos.Raw.isValid_iff_exists_append.mpr
    refine ⟨String.ofList before, String.ofList (lexeme.text ++ after), ?_, ?_⟩
    · rw [← String.ofList_append, List.append_assoc]
    · rw [String.rawEndPos, String.utf8ByteSize_ofList]
  · apply String.Pos.Raw.isValid_iff_exists_append.mpr
    refine ⟨String.ofList (before ++ lexeme.text), String.ofList after, ?_, ?_⟩
    · rw [← String.ofList_append]
    · rw [String.rawEndPos, String.utf8ByteSize_ofList, String.utf8Len_append]

def isToken (lexeme : Lexeme) : Bool := lexeme.tokenKind?.isSome

def isWhitespace (lexeme : Lexeme) : Bool := lexeme.kind == .whitespace

theorem isToken_eq_false {lexeme : Lexeme} (h : lexeme.isWhitespace = true) :
    lexeme.isToken = false := by
  rw [isWhitespace, beq_iff_eq] at h
  rw [isToken, tokenKind?, h]
  rfl

theorem isUnrecognized_eq (lexeme : Lexeme) :
    lexeme.isUnrecognized = (!lexeme.isToken && !lexeme.isWhitespace) := by
  rw [isUnrecognized, isToken, isWhitespace, ← Option.not_isSome, Bool.and_comm]
  rfl

/-- Every lexeme is of one kind: a token, unrecognized, or space. -/
theorem perm_kinds (lexemes : List Lexeme) :
    (lexemes.filter isToken ++ lexemes.filter isUnrecognized ++
      lexemes.filter isWhitespace).Perm lexemes := by
  have hothers := List.filter_append_perm isWhitespace (lexemes.filter (!isToken ·))
  have hunrecognized : (lexemes.filter (!isToken ·)).filter (!isWhitespace ·) =
      lexemes.filter isUnrecognized := by
    rw [List.filter_filter]
    apply List.filter_congr
    intro lexeme _
    rw [isUnrecognized_eq, Bool.and_comm]
  have hspace : (lexemes.filter (!isToken ·)).filter isWhitespace =
      lexemes.filter isWhitespace := by
    rw [List.filter_filter]
    apply List.filter_congr
    intro lexeme _
    cases hwhite : lexeme.isWhitespace with
    | false => rfl
    | true => rw [isToken_eq_false hwhite]; rfl
  rw [hunrecognized, hspace] at hothers
  rw [List.append_assoc]
  have hrest := (List.perm_append_comm.trans hothers).append_left (lexemes.filter isToken)
  exact hrest.trans (List.filter_append_perm isToken lexemes)

theorem spans_tokens (lexemes : List Lexeme) :
    (lexemes.filterMap token?).map (·.span) = (lexemes.filter isToken).map (·.span) := by
  induction lexemes with
  | nil => rfl
  | cons lexeme rest ih =>
      cases hkind : lexeme.tokenKind? with
      | none =>
          have htoken : lexeme.token? = none := by rw [token?, hkind]; rfl
          have hother : ¬ lexeme.isToken = true := by simp [isToken, hkind]
          rw [List.filterMap_cons_none htoken, List.filter_cons_of_neg hother, ih]
      | some kind =>
          have htoken : lexeme.token? = some ⟨lexeme.span, kind, lexeme.text⟩ := by
            rw [token?, hkind]
            rfl
          have hown : lexeme.isToken = true := by simp [isToken, hkind]
          rw [List.filterMap_cons_some htoken, List.filter_cons_of_pos hown, List.map_cons,
            List.map_cons, ih]

/-- No text has a negation: a minus sign is one only by what stands before it. -/
theorem tokenKind?_ne_neg (lexeme : Lexeme) : lexeme.tokenKind? ≠ some .neg := by
  unfold tokenKind?
  cases lexeme.kind with
  | word =>
      dsimp only
      split
      · nofun
      · split <;> nofun
  | _ => nofun

end Lexeme

def spaces (input : String) : List Span :=
  ((scan input).filter Lexeme.isWhitespace).map (·.span)

/-- A token of a text is no negation, and its lexeme is what the text holds at its region. -/
theorem exists_lexeme_of_mem_tokenize {input : String} {token : Token}
    (member : token ∈ tokenize input) :
    token.kind ≠ .neg ∧ ∃ lexeme ∈ scan input, token.span = lexeme.span ∧
      token.lexeme = lexeme.text := by
  obtain ⟨lexeme, hlexeme, htoken⟩ := List.mem_filterMap.mp member
  obtain ⟨kind, hkind, rfl⟩ := Option.map_eq_some_iff.mp htoken
  refine ⟨?_, lexeme, hlexeme, rfl, rfl⟩
  rintro rfl
  exact lexeme.tokenKind?_ne_neg hkind

/-- Every byte of a text is accounted for once. The regions of its lexemes tile it, and
begin and end between characters; each lexeme is the longest match where it stands. The
tokens, what is unrecognized and the spaces share out these regions, no two of them
overlap, and each of the three comes in order. The lexeme of a token is what the text
holds at its region, and no token is a negation. -/
theorem scan_accounts_for_input (input : String) :
    Span.Tile 0 input.utf8ByteSize ((scan input).map (·.span)) ∧
      (∀ span ∈ (scan input).map (·.span),
        String.Pos.Raw.IsValid input ⟨span.start⟩ ∧ String.Pos.Raw.IsValid input ⟨span.stop⟩) ∧
      (∀ lexeme ∈ scan input, lexeme.Stands input.toList 0) ∧
      ((tokenize input).map (·.span) ++ unrecognized input ++ spaces input).Perm
        ((scan input).map (·.span)) ∧
      ((tokenize input).map (·.span) ++ unrecognized input ++ spaces input).Pairwise Span.Apart ∧
      ((tokenize input).map (·.span)).Pairwise Span.Before ∧
      (unrecognized input).Pairwise Span.Before ∧ (spaces input).Pairwise Span.Before ∧
      ∀ token ∈ tokenize input, token.kind ≠ .neg ∧
        String.Pos.Raw.extract input ⟨token.span.start⟩ ⟨token.span.stop⟩ =
          String.ofList token.lexeme := by
  have htile : Span.Tile 0 input.utf8ByteSize ((scan input).map (·.span)) := by
    have hlength : input.utf8ByteSize = 0 + Lexeme.byteLength input.toList := by
      rw [Nat.zero_add, Lexeme.byteLength_eq_utf8Len, ← String.utf8ByteSize_ofList,
        String.ofList_toList]
    rw [hlength]
    exact Lexeme.tile_scanFrom none 0 input.toList
  have hordered := htile.pairwise_before
  have htokens : (tokenize input).map (·.span) =
      ((scan input).filter Lexeme.isToken).map (·.span) := Lexeme.spans_tokens (scan input)
  have hpart (p : Lexeme → Bool) :
      (((scan input).filter p).map (·.span)).Pairwise Span.Before :=
    hordered.sublist (List.filter_sublist.map _)
  have hperm : ((tokenize input).map (·.span) ++ unrecognized input ++ spaces input).Perm
      ((scan input).map (·.span)) := by
    rw [htokens, unrecognized, spaces, ← List.map_append, ← List.map_append]
    exact (Lexeme.perm_kinds (scan input)).map _
  refine ⟨htile, ?_, fun _ => Lexeme.stands_of_mem_scanFrom, hperm, ?_, ?_, hpart _, hpart _, ?_⟩
  · intro span member
    obtain ⟨lexeme, hlexeme, rfl⟩ := List.mem_map.mp member
    obtain ⟨hstart, hstop, -⟩ := Lexeme.extract_of_mem_scan hlexeme
    exact ⟨hstart, hstop⟩
  · apply hperm.symm.pairwise (hordered.imp Or.inl)
    exact Or.symm
  · rw [htokens]
    exact hpart _
  · intro token member
    obtain ⟨hkind, lexeme, hlexeme, hspan, htext⟩ := exists_lexeme_of_mem_tokenize member
    rw [hspan, htext]
    exact ⟨hkind, (Lexeme.extract_of_mem_scan hlexeme).2.2⟩

end Formula
