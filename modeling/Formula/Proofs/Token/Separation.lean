import Formula.Proofs.Token.Seams

/-!
Texts with space between them. Nothing but space joins space, so the space is a piece of
its own, together with what space the two texts end and begin with. No piece looks further
than to its neighbours, and what it asks of them is only whether they are characters of
words. So the two texts have the tokens that they have alone, the second ones further on.
-/

namespace Formula

def Span.shift (distance : Nat) (span : Span) : Span :=
  ⟨span.start + distance, span.stop + distance⟩

def Token.shift (distance : Nat) (token : Token) : Token :=
  { token with span := token.span.shift distance }

namespace Lexeme

def shift (distance : Nat) (lexeme : Lexeme) : Lexeme :=
  { lexeme with span := lexeme.span.shift distance }

theorem shift_shift (near far : Nat) : shift far ∘ shift near = shift (far + near) := by
  funext lexeme
  simp only [Function.comp_apply, shift, Span.shift, Nat.add_assoc, Nat.add_comm near far]

theorem token?_shift (distance : Nat) (lexeme : Lexeme) :
    (lexeme.shift distance).token? = lexeme.token?.map (Token.shift distance) := by
  have hkind : (lexeme.shift distance).tokenKind? = lexeme.tokenKind? := rfl
  rw [token?, token?, hkind, Option.map_map]
  rfl

theorem scanFrom_shift (before : Option Char) (offset distance : Nat) (text : List Char) :
    scanFrom before (offset + distance) text =
      (scanFrom before offset text).map (shift distance) := by
  fun_induction scanFrom before offset text with
  | case1 => rw [scanFrom]; rfl
  | case2 before offset c rest piece stop ih =>
      have hstop : offset + distance + byteLength piece.2.1 = stop + distance :=
        Nat.add_right_comm offset distance _
      rw [scanFrom, hstop, ih]
      rfl

def amongWords (lexeme : Lexeme) : Lexeme :=
  { lexeme with
    before := lexeme.before.filter isWordChar
    after := lexeme.after.filter isWordChar }

theorem tokenKind?_amongWords (lexeme : Lexeme) :
    lexeme.amongWords.tokenKind? = lexeme.tokenKind? := by
  have hany (neighbour : Option Char) :
      (neighbour.filter isWordChar).any isWordChar = neighbour.any isWordChar := by
    cases neighbour with
    | none => rfl
    | some c => cases h : isWordChar c <;> simp [Option.filter, h]
  have hisolated : lexeme.amongWords.isIsolated = lexeme.isIsolated := by
    simp only [isIsolated, amongWords, hany]
  simp only [tokenKind?, hisolated]
  rfl

/-- The pieces of a text that are no space, with what they can tell of their neighbours. -/
def visible (before : Option Char) (offset : Nat) (text : List Char) : List Lexeme :=
  ((scanFrom before offset text).map amongWords).filter (!·.isWhitespace)

theorem token?_amongWords (lexeme : Lexeme) : lexeme.amongWords.token? = lexeme.token? := by
  rw [token?, token?, tokenKind?_amongWords]
  rfl

theorem token?_eq_none {lexeme : Lexeme} (space : lexeme.isWhitespace = true) :
    lexeme.token? = none := by
  have htoken := isToken_eq_false space
  rw [isToken, Option.isSome_eq_false_iff, Option.isNone_iff_eq_none] at htoken
  rw [token?, htoken]
  rfl

theorem isUnrecognized_amongWords (lexeme : Lexeme) :
    lexeme.amongWords.isUnrecognized = lexeme.isUnrecognized := by
  rw [isUnrecognized, isUnrecognized, tokenKind?_amongWords]
  rfl

section Visible

variable (before : Option Char) (offset : Nat) (text : List Char)

/-- The tokens of a text are those of its visible pieces. -/
theorem filterMap_visible :
    (visible before offset text).filterMap token? =
      (scanFrom before offset text).filterMap token? := by
  rw [visible, List.filterMap_filter, List.filterMap_map]
  apply List.filterMap_congr
  intro lexeme _
  rw [Function.comp_apply, token?_amongWords]
  cases hspace : lexeme.isWhitespace with
  | true => rw [token?_eq_none hspace, ite_self]
  | false =>
      have hvisible : (!lexeme.amongWords.isWhitespace) = true := by
        rw [Bool.not_eq_true', ← hspace]
        rfl
      exact if_pos hvisible

/-- What is unrecognized in a text is among its visible pieces. -/
theorem filter_visible :
    ((visible before offset text).filter isUnrecognized).map (·.span) =
      ((scanFrom before offset text).filter isUnrecognized).map (·.span) := by
  have hvisible (lexeme : Lexeme) :
      (lexeme.isUnrecognized && !lexeme.isWhitespace) = lexeme.isUnrecognized := by
    rw [isUnrecognized_eq, Bool.and_assoc, Bool.and_self]
  have hsame : isUnrecognized ∘ amongWords = isUnrecognized := funext isUnrecognized_amongWords
  simp only [visible, List.filter_filter, hvisible]
  rw [List.filter_map, List.map_map, hsame]
  rfl

theorem visible_shift (distance : Nat) :
    visible before (offset + distance) text =
      (visible before offset text).map (shift distance) := by
  have hwords : amongWords ∘ shift distance = shift distance ∘ amongWords := rfl
  rw [visible, visible, scanFrom_shift, List.map_map, hwords, ← List.map_map, List.filter_map]
  rfl

end Visible

/-- The first piece sees no more of what comes before than that it is no word. -/
theorem visible_congr {before before' : Option Char} (offset : Nat) (text : List Char)
    (h : before.filter isWordChar = before'.filter isWordChar) :
    visible before offset text = visible before' offset text := by
  cases text with
  | nil => rw [visible, visible, scanFrom, scanFrom]
  | cons c rest =>
      rw [visible, visible, scanFrom, scanFrom, List.map_cons, List.map_cons]
      simp only [amongWords, h]

theorem map_followedBy {next next' : Option Char} (lexemes : List Lexeme)
    (h : next.filter isWordChar = next'.filter isWordChar) :
    (followedBy next lexemes).map amongWords = (followedBy next' lexemes).map amongWords := by
  fun_induction followedBy next lexemes with
  | case1 => rfl
  | case2 last => simp only [followedBy, List.map_cons, List.map_nil, amongWords, h]
  | case3 lexeme later rest ih => rw [followedBy, List.map_cons, List.map_cons, ih]

/-- Nothing follows the last piece of a text. -/
theorem followedBy_none (before : Option Char) (offset : Nat) (text : List Char) :
    followedBy none (scanFrom before offset text) = scanFrom before offset text := by
  have hseam : Seam text [] := fun _ _ _ member => nomatch member
  have happend := scanFrom_append before offset hseam
  rw [List.append_nil, scanFrom, List.append_nil] at happend
  exact happend.symm

/-- At a seam that no word follows the two texts do not see each other. -/
theorem visible_append (before : Option Char) (offset : Nat) {a b : List Char} (seam : Seam a b)
    (apart : b.head?.filter isWordChar = none) :
    visible before offset (a ++ b) =
      visible before offset a ++ visible (a.getLast?.or before) (offset + byteLength a) b := by
  have hfirst := @map_followedBy b.head? none (scanFrom before offset a) apart
  rw [followedBy_none] at hfirst
  rw [visible, scanFrom_append before offset seam, List.map_append, List.filter_append, hfirst]
  rfl

section Space

variable {w b : List Char} (spaces : ∀ c ∈ w, isSpace c = true) (nonempty : w ≠ [])
  (ends : ∀ c ∈ b.head?, isSpace c = false)
include spaces nonempty

theorem filter_of_spaces : w.head?.filter isWordChar = none ∧ w.getLast?.filter isWordChar = none := by
  have hnone (c : Char) (member : c ∈ w) : (some c).filter isWordChar = none := by
    rw [Option.filter_some, isWordChar_of_isSpace (spaces c member)]
    rfl
  rw [List.head?_eq_some_head nonempty, List.getLast?_eq_some_getLast nonempty]
  exact ⟨hnone _ (List.head_mem nonempty), hnone _ (List.getLast_mem nonempty)⟩

include ends

/-- Space before a text is one piece that is not visible. -/
theorem visible_of_spaces (before : Option Char) (offset : Nat) :
    visible before offset (w ++ b) = visible none (offset + byteLength w) b := by
  have hlast := (filter_of_spaces spaces nonempty).2
  obtain ⟨c, rest, rfl⟩ := List.exists_cons_of_ne_nil nonempty
  rw [List.forall_mem_cons] at spaces
  have hcut := cut spaces.2 ends
  have hsplit : splitFirst c (rest ++ b) = (.whitespace, c :: rest, b) := by
    rw [splitFirst, if_pos spaces.1, hcut.1, hcut.2]
  rw [← visible_congr (offset + byteLength (c :: rest)) b hlast, visible, List.cons_append,
    scanFrom, hsplit]
  rfl

theorem visible_spaced {a : List Char} (starts : ∀ c ∈ a.getLast?, isSpace c = false) :
    visible none 0 (a ++ (w ++ b)) =
      visible none 0 a ++ (visible none 0 b).map (shift (byteLength (a ++ w))) := by
  have hhead : (w ++ b).head? = w.head? := List.head?_append_of_ne_nil w nonempty
  have hseam : Seam a (w ++ b) := by
    intro last hlast next hnext
    rw [hhead] at hnext
    exact joins_of_isSpace (starts last hlast) (spaces next (List.mem_of_mem_head? hnext))
  have happart : (w ++ b).head?.filter isWordChar = none := by
    rw [hhead]
    exact (filter_of_spaces spaces nonempty).1
  rw [visible_append none 0 hseam happart, visible_of_spaces spaces nonempty ends,
    ← visible_shift, byteLength_append, Nat.zero_add, Nat.zero_add]

end Space

/-- Space around a text is not visible, and only moves it on. -/
theorem visible_trailing {text space : List Char} (spaces : ∀ c ∈ space, isSpace c = true)
    (ends : ∀ c ∈ text.getLast?, isSpace c = false) :
    visible none 0 (text ++ space) = visible none 0 text := by
  cases space with
  | nil => rw [List.append_nil]
  | cons c rest =>
      have hspaced := visible_spaced spaces (List.cons_ne_nil c rest) (b := [])
        (fun c member => nomatch member) ends
      have hnil : visible none 0 [] = [] := by rw [visible, scanFrom]; rfl
      rwa [List.append_nil, hnil, List.map_nil, List.append_nil] at hspaced

theorem visible_leading {text space : List Char} (spaces : ∀ c ∈ space, isSpace c = true)
    (starts : ∀ c ∈ text.head?, isSpace c = false) :
    visible none 0 (space ++ text) = (visible none 0 text).map (shift (byteLength space)) := by
  cases space with
  | nil => exact (List.map_id _).symm
  | cons c rest => rw [visible_of_spaces spaces (List.cons_ne_nil c rest) starts, ← visible_shift]

/-- Whatever the two texts end and begin with, space between them keeps them apart. -/
theorem visible_append_space {a w b : List Char} (spaces : ∀ c ∈ w, isSpace c = true)
    (nonempty : w ≠ []) :
    visible none 0 (a ++ w ++ b) =
      visible none 0 a ++ (visible none 0 b).map (shift (byteLength (a ++ w))) := by
  obtain ⟨text, trailing, rfl, htrailing, hends⟩ := exists_cut_last isSpace a
  obtain ⟨leading, text', rfl, -, -, hleading, hstarts⟩ := exists_cut isSpace b
  have hspaces : ∀ c ∈ trailing ++ w ++ leading, isSpace c = true := by
    simp only [List.forall_mem_append]
    exact ⟨⟨htrailing, spaces⟩, hleading⟩
  have hnonempty : trailing ++ w ++ leading ≠ [] := by
    simp [nonempty]
  have hwhole : text ++ trailing ++ w ++ (leading ++ text') =
      text ++ (trailing ++ w ++ leading ++ text') := by
    simp only [List.append_assoc]
  rw [hwhole, visible_spaced hspaces hnonempty hstarts hends, visible_trailing htrailing hends,
    visible_leading hleading hstarts, List.map_map, shift_shift, ← byteLength_append]
  simp only [List.append_assoc]

end Lexeme

/-- Texts with space between them, of any kind and length, are read each by itself. The
tokens are those of the first text and then those of the second, which stand further on by
the length of what comes before; and what is unrecognized is likewise what it is in each. -/
theorem tokenize_append_space (a w b : String) (nonempty : w ≠ "")
    (spaces : ∀ c ∈ w.toList, Lexeme.isSpace c = true) :
    tokenize (a ++ w ++ b) = tokenize a ++ (tokenize b).map (Token.shift (a ++ w).utf8ByteSize) ∧
      unrecognized (a ++ w ++ b) =
        unrecognized a ++ (unrecognized b).map (Span.shift (a ++ w).utf8ByteSize) := by
  have htokens (input : String) :
      tokenize input = (Lexeme.visible none 0 input.toList).filterMap Lexeme.token? :=
    (Lexeme.filterMap_visible none 0 input.toList).symm
  have hunrecognized (input : String) : unrecognized input =
      ((Lexeme.visible none 0 input.toList).filter Lexeme.isUnrecognized).map (·.span) :=
    (Lexeme.filter_visible none 0 input.toList).symm
  have hnonempty : w.toList ≠ [] := fun h => nonempty (String.toList_eq_nil_iff.mp h)
  have hvisible := Lexeme.visible_append_space (a := a.toList) (b := b.toList) spaces hnonempty
  have hlength : (a ++ w).utf8ByteSize = Lexeme.byteLength (a.toList ++ w.toList) := by
    rw [← String.toList_append, Lexeme.byteLength_toList]
  rw [htokens, htokens, htokens, hunrecognized, hunrecognized, hunrecognized, hlength]
  simp only [String.toList_append, hvisible]
  constructor
  · have htoken : Lexeme.token? ∘ Lexeme.shift (Lexeme.byteLength (a.toList ++ w.toList)) =
        fun lexeme => lexeme.token?.map (Token.shift (Lexeme.byteLength (a.toList ++ w.toList))) :=
      funext (Lexeme.token?_shift _)
    rw [List.filterMap_append, List.filterMap_map, List.map_filterMap, htoken]
  · rw [List.filter_append, List.map_append, List.filter_map, List.map_map, List.map_map]
    rfl

/-- In `2x` the letter is no variable, but after a tab it is one. -/
theorem tokenize_append_space_tab :
    tokenize "2x" = tokenize "2" ∧
      tokenize ("2" ++ "\t" ++ "x") =
        tokenize "2" ++ (tokenize "x").map (Token.shift ("2" ++ "\t").utf8ByteSize) := by
  have hspaces : ∀ c ∈ "\t".toList, Lexeme.isSpace c = true := by
    intro c member
    rw [List.mem_singleton.mp member]
    rfl
  exact ⟨by decide +kernel, (tokenize_append_space "2" "\t" "x" (by decide) hspaces).1⟩

end Formula
