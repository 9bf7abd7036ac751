import Formula.Proofs.Token.Scan
import Formula.Proofs.Token.Tiling

/-!
Letter case plays no part in tokens. A letter that is made small stays a letter, and as long
as it was; everything else stays what it is. So the text with small letters falls into
pieces of the same kinds at the same places, and each piece means the same: the name of a
function is known in any case, and a variable is so by its length and its neighbours.
-/

namespace Formula

def Token.mapLexeme (f : List Char → List Char) (token : Token) : Token :=
  { token with lexeme := f token.lexeme }

namespace Lexeme

section Characters

variable (c : Char)

/-- Only a letter changes, and it becomes a letter. -/
theorem toLower_cases : c.toLower = c ∨ c.isAlpha = true ∧ c.toLower.isAlpha = true := by
  rcases Bool.eq_false_or_eq_true c.isUpper with hupper | hupper
  · have halpha : c.isAlpha = true := by rw [Char.isAlpha, hupper, Bool.true_or]
    exact .inr ⟨halpha, (Char.isAlpha_toLower_eq_isAlpha c).trans halpha⟩
  · exact .inl (Char.toLower_eq_of_not_isUpper (by simp [hupper]))

/-- What does not tell letters from each other does not see their case. -/
theorem toLower_congr {α : Type} (p : Char → α) (value : α)
    (h : ∀ c, c.isAlpha = true → p c = value) : p c.toLower = p c := by
  rcases toLower_cases c with hsame | ⟨halpha, hlower⟩
  · rw [hsame]
  · rw [h _ hlower, h _ halpha]

theorem isSpace_toLower : isSpace c.toLower = isSpace c :=
  toLower_congr c isSpace false fun _ h => isSpace_eq_false (isWordChar_of_isAlpha h)

theorem isDigit_toLower : c.toLower.isDigit = c.isDigit :=
  toLower_congr c Char.isDigit false fun _ h => isDigit_eq_false_of_isAlpha h

theorem isWordChar_toLower : isWordChar c.toLower = isWordChar c :=
  toLower_congr c isWordChar true fun _ h => isWordChar_of_isAlpha h

theorem toLower_eq_iff {mark : Char} (h : mark.isAlpha = false) : c.toLower = mark ↔ c = mark := by
  have hmark : decide (c.toLower = mark) = decide (c = mark) := by
    apply toLower_congr c (fun c => decide (c = mark)) false
    intro c halpha
    rw [decide_eq_false_iff_not]
    rintro rfl
    rw [h] at halpha
    cases halpha
  exact decide_eq_decide.mp hmark

theorem utf8Size_toLower : c.toLower.utf8Size = c.utf8Size := by
  apply toLower_congr c Char.utf8Size 1
  intro c halpha
  have hbound : c.val ≤ 0x7f := by
    simp only [Char.isAlpha, Char.isUpper, Char.isLower, Bool.or_eq_true, Bool.and_eq_true,
      decide_eq_true_eq] at halpha
    rcases halpha with hletter | hletter
    · exact UInt32.le_trans hletter.2 (by decide)
    · exact UInt32.le_trans hletter.2 (by decide)
  exact if_pos hbound

end Characters

section Pieces

variable (text : List Char)

theorem byteLength_toLower : byteLength (text.map Char.toLower) = byteLength text := by
  induction text with
  | nil => rfl
  | cons c text ih => rw [List.map_cons, byteLength, byteLength, utf8Size_toLower, ih]

/-- A run of characters ends at the same place if they are tested for what is not their
case. -/
theorem cut_toLower {p : Char → Bool} (h : ∀ c : Char, p c.toLower = p c) :
    (text.map Char.toLower).takeWhile p = (text.takeWhile p).map Char.toLower ∧
      (text.map Char.toLower).dropWhile p = (text.dropWhile p).map Char.toLower := by
  have hsame : p ∘ Char.toLower = p := funext h
  rw [List.takeWhile_map, List.dropWhile_map, hsame]
  exact ⟨rfl, rfl⟩

theorem splitNumeral_toLower :
    Number.splitNumeral (text.map Char.toLower) =
      ((Number.splitNumeral text).1.map Char.toLower,
        (Number.splitNumeral text).2.1.map Char.toLower,
        (Number.splitNumeral text).2.2.map Char.toLower) := by
  have hcut := fun text => cut_toLower text isDigit_toLower
  obtain ⟨hnone, hsplit⟩ | ⟨rest, hrest, hsplit⟩ := Number.splitNumeral_cases text
  · have hlowered : ((text.map Char.toLower).dropWhile Char.isDigit).head? ≠ some '.' := by
      rw [(hcut text).2, List.head?_map]
      intro hpoint
      obtain ⟨c, hhead, hlower⟩ := Option.map_eq_some_iff.mp hpoint
      rw [(toLower_eq_iff c rfl).mp hlower] at hhead
      exact hnone hhead
    rw [Number.splitNumeral_of_no_point hlowered, hsplit, (hcut text).1, (hcut text).2,
      List.map_nil]
  · have hlowered : (text.map Char.toLower).dropWhile Char.isDigit =
        '.' :: rest.map Char.toLower := by
      rw [(hcut text).2, hrest]
      rfl
    rw [Number.splitNumeral_of_point hlowered, hsplit, (hcut text).1, (hcut rest).1, (hcut rest).2]
    rfl

/-- The first piece of a text is of the same kind in small letters. -/
theorem splitFirst_toLower (c : Char) (rest : List Char) :
    splitFirst c.toLower (rest.map Char.toLower) =
      ((splitFirst c rest).1, (splitFirst c rest).2.1.map Char.toLower,
        (splitFirst c rest).2.2.map Char.toLower) := by
  have hspaces := cut_toLower rest isSpace_toLower
  have hletters := cut_toLower rest Char.isAlpha_toLower_eq_isAlpha
  have hnumber := splitNumeral_toLower (c :: rest)
  unfold splitFirst
  rw [isSpace_toLower, isDigit_toLower, Char.isAlpha_toLower_eq_isAlpha]
  split
  · rw [hspaces.1, hspaces.2, List.map_cons]
  · split
    · rw [← List.map_cons, hnumber]
      simp only [List.map_append]
    · split
      · rw [hletters.1, hletters.2, List.map_cons]
      · rename_i hletter
        -- What is not a letter is not changed.
        have hsame : c.toLower = c :=
          (toLower_cases c).resolve_right fun h => hletter h.1
        rw [hsame, List.map_cons, List.map_nil, hsame]

end Pieces

def lowered (lexeme : Lexeme) : Lexeme where
  kind := lexeme.kind
  span := lexeme.span
  text := lexeme.text.map Char.toLower
  before := lexeme.before.map Char.toLower
  after := lexeme.after.map Char.toLower

/-- The pieces of a text in small letters are the pieces of the text, in small letters. -/
theorem scanFrom_toLower (before : Option Char) (offset : Nat) (text : List Char) :
    scanFrom (before.map Char.toLower) offset (text.map Char.toLower) =
      (scanFrom before offset text).map lowered := by
  fun_induction scanFrom before offset text with
  | case1 before offset =>
      rw [List.map_nil, scanFrom]
      rfl
  | case2 before offset c rest piece stop ih =>
      have hstop : offset + byteLength (piece.2.1.map Char.toLower) = stop := by
        rw [byteLength_toLower]
      rw [List.map_cons, scanFrom, splitFirst_toLower c rest]
      dsimp only
      rw [List.getLast?_map, List.head?_map, hstop, ih]
      rfl

theorem ofName?_toLower (word : List Char) :
    Func.ofName? (word.map Char.toLower) = Func.ofName? word := by
  have hfold : (word.map Char.toLower).map Char.toLower = word.map Char.toLower := by
    rw [List.map_map]
    exact List.map_congr_left fun c _ => Char.toLower_toLower_eq_toLower c
  rw [Func.ofName?, hfold]
  rfl

variable (lexeme : Lexeme)

theorem isIsolated_lowered : lexeme.lowered.isIsolated = lexeme.isIsolated := by
  simp only [isIsolated, lowered, Option.any_map, isWordChar_toLower]

theorem tokenKind?_lowered : lexeme.lowered.tokenKind? = lexeme.tokenKind? := by
  simp only [tokenKind?, isIsolated_lowered]
  simp only [lowered, ofName?_toLower, List.length_map]

theorem token?_lowered :
    lexeme.lowered.token? = lexeme.token?.map (Token.mapLexeme (List.map Char.toLower)) := by
  rw [token?, token?, tokenKind?_lowered, Option.map_map]
  rfl

theorem isUnrecognized_lowered : lexeme.lowered.isUnrecognized = lexeme.isUnrecognized := by
  simp only [isUnrecognized, tokenKind?_lowered]
  rfl

end Lexeme

theorem scan_toLower (input : String) : scan input.toLower = (scan input).map Lexeme.lowered := by
  rw [scan, String.toLower, String.toList_map]
  exact Lexeme.scanFrom_toLower none 0 input.toList

/-- A text in small letters has the same tokens at the same places, in small letters. -/
theorem tokenize_toLower (input : String) :
    tokenize input.toLower = (tokenize input).map (Token.mapLexeme (List.map Char.toLower)) := by
  have htokens : Lexeme.token? ∘ Lexeme.lowered =
      fun lexeme => lexeme.token?.map (Token.mapLexeme (List.map Char.toLower)) :=
    funext Lexeme.token?_lowered
  rw [tokenize, scan_toLower, List.filterMap_map, htokens, tokenize, List.map_filterMap]

theorem unrecognized_toLower (input : String) : unrecognized input.toLower = unrecognized input := by
  have hmarked : Lexeme.isUnrecognized ∘ Lexeme.lowered = Lexeme.isUnrecognized :=
    funext Lexeme.isUnrecognized_lowered
  rw [unrecognized, scan_toLower, List.filter_map, hmarked, List.map_map]
  rfl

theorem utf8ByteSize_toLower (input : String) : input.toLower.utf8ByteSize = input.utf8ByteSize := by
  rw [← Lexeme.byteLength_toList, String.toLower, String.toList_map, Lexeme.byteLength_toLower,
    Lexeme.byteLength_toList]

end Formula
