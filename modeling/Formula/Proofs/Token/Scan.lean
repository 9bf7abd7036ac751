import Formula.Proofs.Number.Numeral
import Formula.Token.Lexeme

/-!
The first token of a text. A numeral, the name of a function, a letter or a symbol is cut
off as it is if what follows could not belong to it; space is left out. What comes before
a text matters to a letter only, which is no variable if it touches a word.
-/

namespace Formula.Lexeme

def tokensFrom (before : Option Char) (offset : Nat) (text : List Char) : List Token :=
  (scanFrom before offset text).filterMap token?

def tokenAt (offset : Nat) (kind : TokenKind) (text : List Char) : Token :=
  ⟨⟨offset, offset + byteLength text⟩, kind, text⟩

/-- A text begins with nothing that could belong to what stands before it. -/
def Closes (rest : List Char) : Prop := ∀ c ∈ rest.head?, isWordChar c = false ∧ c ≠ '.'

theorem closes_nil : Closes [] := fun _ member => nomatch member

theorem closes_cons {c : Char} (rest : List Char) (word : isWordChar c = false) (point : c ≠ '.') :
    Closes (c :: rest) := by
  intro first member
  cases member
  exact ⟨word, point⟩

section Characters

variable {c : Char}

theorem isAlpha_eq_false (h : isWordChar c = false) : c.isAlpha = false := by
  simp only [isWordChar, Char.isAlphanum, Bool.or_eq_false_iff] at h
  exact h.1.1

theorem isDigit_eq_false (h : isWordChar c = false) : c.isDigit = false := by
  simp only [isWordChar, Char.isAlphanum, Bool.or_eq_false_iff] at h
  exact h.1.2

theorem isSpace_eq_false (h : isWordChar c = true) : isSpace c = false := by
  have hne : ∀ space, isWordChar space = false → (c == space) = false := by
    intro space hspace
    rw [beq_eq_false_iff_ne]
    rintro rfl
    rw [h] at hspace
    cases hspace
  simp only [isSpace, hne ' ' rfl, hne '\t' rfl, hne '\n' rfl, hne '\r' rfl, Bool.or_false]

theorem isWordChar_of_isAlpha (h : c.isAlpha = true) : isWordChar c = true := by
  simp only [isWordChar, Char.isAlphanum, h, Bool.true_or]

theorem isWordChar_of_isDigit (h : c.isDigit = true) : isWordChar c = true := by
  simp only [isWordChar, Char.isAlphanum, h, Bool.or_true, Bool.true_or]

/-- The digits come before the letters. -/
theorem isDigit_eq_false_of_isAlpha (h : c.isAlpha = true) : c.isDigit = false := by
  rw [Bool.eq_false_iff]
  intro hdigit
  simp only [Char.isAlpha, Char.isUpper, Char.isLower, Char.isDigit, Bool.or_eq_true,
    Bool.and_eq_true, decide_eq_true_eq] at h hdigit
  rcases h with hletter | hletter
  · exact absurd (UInt32.le_trans hletter.1 hdigit.2) (by decide)
  · exact absurd (UInt32.le_trans hletter.1 hdigit.2) (by decide)

end Characters

section Pieces

variable {rest : List Char}

theorem splitNumeral_numeral {text : List Char} (h : Numeral text) (closes : Closes rest) :
    ∃ whole point, whole ++ point = text ∧
      Number.splitNumeral (text ++ rest) = (whole, point, rest) := by
  have hafter : ∀ c ∈ rest.head?, c.isDigit = false ∧ c ≠ '.' :=
    fun c member => ⟨isDigit_eq_false (closes c member).1, (closes c member).2⟩
  cases h with
  | whole hdigits =>
      exact ⟨text, [], List.append_nil text, Number.splitNumeral_whole hdigits hafter⟩
  | @point whole fraction hwhole hfraction =>
      refine ⟨whole, '.' :: fraction, rfl, ?_⟩
      rw [List.append_assoc, List.cons_append]
      exact Number.splitNumeral_point hwhole hfraction.2 fun c member => (hafter c member).1

theorem splitFirst_numeral {c : Char} {text : List Char} (h : Numeral (c :: text))
    (closes : Closes rest) : splitFirst c (text ++ rest) = (.number, c :: text, rest) := by
  obtain ⟨first, others, hdigit, heq⟩ := h.exists_digit_cons
  cases heq
  obtain ⟨whole, point, htext, hsplit⟩ := splitNumeral_numeral h closes
  rw [List.cons_append] at hsplit
  unfold splitFirst
  rw [if_neg (by simp [isSpace_eq_false (isWordChar_of_isDigit hdigit)]), if_pos hdigit]
  simp only [hsplit, htext]

theorem splitFirst_word {c : Char} {text : List Char}
    (h : ∀ letter ∈ c :: text, letter.isAlpha = true) (closes : Closes rest) :
    splitFirst c (text ++ rest) = (.word, c :: text, rest) := by
  have hfirst := h c List.mem_cons_self
  have hdigit : c.isDigit = false := isDigit_eq_false_of_isAlpha hfirst
  have hcut := @cut Char text rest Char.isAlpha (fun letter member => h letter (.tail c member))
    (fun next member => isAlpha_eq_false (closes next member).1)
  unfold splitFirst
  rw [if_neg (by simp [isSpace_eq_false (isWordChar_of_isAlpha hfirst)]), if_neg (by simp [hdigit]),
    if_pos hfirst, hcut.1, hcut.2]

end Pieces

section Tokens

variable (before : Option Char) (offset : Nat)

theorem tokensFrom_cons {c : Char} {rest text after : List Char} {kind : LexemeKind}
    (h : splitFirst c rest = (kind, text, after)) :
    tokensFrom before offset (c :: rest) =
      (token? ⟨kind, ⟨offset, offset + byteLength text⟩, text, before, after.head?⟩).toList ++
        tokensFrom text.getLast? (offset + byteLength text) after := by
  unfold tokensFrom
  rw [scanFrom, h, List.filterMap_cons]
  dsimp only
  cases token? _ <;> rfl

theorem tokensFrom_token {c : Char} {rest text after : List Char} {kind : LexemeKind}
    {meaning : TokenKind} (h : splitFirst c rest = (kind, text, after))
    (means : tokenKind? ⟨kind, ⟨offset, offset + byteLength text⟩, text, before, after.head?⟩ =
      some meaning) :
    tokensFrom before offset (c :: rest) = tokenAt offset meaning text ::
      tokensFrom text.getLast? (offset + byteLength text) after := by
  rw [tokensFrom_cons before offset h, token?, means]
  rfl

theorem tokensFrom_numeral {text rest : List Char} (h : Numeral text) (closes : Closes rest) :
    tokensFrom before offset (text ++ rest) = tokenAt offset .number text ::
      tokensFrom text.getLast? (offset + byteLength text) rest := by
  obtain ⟨c, others, -, rfl⟩ := h.exists_digit_cons
  exact tokensFrom_token before offset (splitFirst_numeral h closes) rfl

theorem tokensFrom_function (func : Func) {rest : List Char} (closes : Closes rest) :
    tokensFrom before offset (func.callName.toList ++ rest) =
      tokenAt offset (.func func) func.callName.toList ::
        tokensFrom func.callName.toList.getLast? (offset + byteLength func.callName.toList) rest := by
  obtain ⟨c, others, hname⟩ : ∃ c others, func.callName.toList = c :: others := by
    cases func <;> exact ⟨_, _, rfl⟩
  have hletters : ∀ letter ∈ func.callName.toList, letter.isAlpha = true := by
    rw [← List.all_eq_true]
    cases func <;> rfl
  have hfound : Func.ofName? func.callName.toList = some func := by
    cases func <;> rfl
  rw [hname] at hletters hfound ⊢
  apply tokensFrom_token before offset (splitFirst_word hletters closes)
  simp only [tokenKind?, hfound]

/-- A small letter is a variable if it touches no word. -/
theorem tokensFrom_letter {c : Char} (h : c.isLower = true) {rest : List Char}
    (apart : before.any isWordChar = false) (closes : Closes rest) :
    tokensFrom before offset (c :: rest) = tokenAt offset .letter [c] ::
      tokensFrom (some c) (offset + byteLength [c]) rest := by
  have hletters : ∀ letter ∈ [c], letter.isAlpha = true := by
    intro letter member
    rw [List.mem_singleton.mp member, Char.isAlpha, h, Bool.or_true]
  have hlong : ∀ func : Func, func.callName.toList.length = 3 := by
    rintro (_ | _ | _ | _) <;> rfl
  have hunknown : Func.ofName? [c] = none := by
    rw [Func.ofName?, List.find?_eq_none]
    intro func _
    rw [decide_eq_true_eq]
    intro hname
    have hlength := hlong func
    rw [← hname] at hlength
    cases hlength
  have hafter : rest.head?.any isWordChar = false := by
    cases hrest : rest.head? with
    | none => rfl
    | some next => exact (closes next hrest).1
  apply tokensFrom_token before offset (splitFirst_word hletters closes)
  simp only [tokenKind?, hunknown, isIsolated, apart, hafter]
  rfl

variable (rest : List Char)

theorem tokensFrom_operator (op : BinaryOp) :
    tokensFrom before offset (op.symbol :: rest) = tokenAt offset (.binary op) [op.symbol] ::
      tokensFrom (some op.symbol) (offset + byteLength [op.symbol]) rest := by
  have hsplit : splitFirst op.symbol rest = (.operator op, [op.symbol], rest) := by
    cases op <;> rfl
  exact tokensFrom_token before offset hsplit rfl

theorem tokensFrom_leftParen :
    tokensFrom before offset ('(' :: rest) = tokenAt offset .leftParen ['('] ::
      tokensFrom (some '(') (offset + byteLength ['(']) rest := by
  have hsplit : splitFirst '(' rest = (.leftParen, ['('], rest) := rfl
  exact tokensFrom_token before offset hsplit rfl

theorem tokensFrom_rightParen :
    tokensFrom before offset (')' :: rest) = tokenAt offset .rightParen [')'] ::
      tokensFrom (some ')') (offset + byteLength [')']) rest := by
  have hsplit : splitFirst ')' rest = (.rightParen, [')'], rest) := rfl
  exact tokensFrom_token before offset hsplit rfl

/-- Space before a text gives no token. -/
theorem tokensFrom_space :
    tokensFrom before offset (' ' :: rest) = tokensFrom (some ' ') (offset + 1) rest := by
  have hskipped : ∀ before offset c rest, isSpace c = true →
      tokensFrom before offset (c :: rest) =
        tokensFrom (c :: rest.takeWhile isSpace).getLast?
          (offset + byteLength (c :: rest.takeWhile isSpace)) (rest.dropWhile isSpace) := by
    intro before offset c rest h
    have hsplit : splitFirst c rest =
        (.whitespace, c :: rest.takeWhile isSpace, rest.dropWhile isSpace) := if_pos h
    rw [tokensFrom_cons before offset hsplit]
    rfl
  rw [hskipped before offset ' ' rest rfl]
  -- The piece may go on into the rest, and then the rest begins with what is left of it.
  cases rest with
  | nil => rfl
  | cons c rest =>
      cases hspace : isSpace c with
      | true =>
          rw [hskipped (some ' ') (offset + 1) c rest hspace, List.takeWhile_cons_of_pos hspace,
            List.dropWhile_cons_of_pos hspace, List.getLast?_cons_cons]
          have hstop : offset + byteLength (' ' :: c :: rest.takeWhile isSpace) =
              offset + 1 + byteLength (c :: rest.takeWhile isSpace) :=
            (Nat.add_assoc offset 1 _).symm
          rw [hstop]
      | false =>
          rw [List.takeWhile_cons_of_neg (by simp [hspace]),
            List.dropWhile_cons_of_neg (by simp [hspace])]
          rfl

end Tokens

end Formula.Lexeme
