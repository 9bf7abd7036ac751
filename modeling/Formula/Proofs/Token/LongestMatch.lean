import Formula.Proofs.Token.Scan

/-!
The pieces of a text as longest matches. Each kind of lexeme has a pattern. At every place
of a text, the piece that is split off there matches the pattern of its kind, and no other
beginning of the rest that matches a pattern is longer. One that is as long is of the same
kind, or it is a character that would be a symbol if it were nothing else.
-/

namespace Formula

open Lexeme

/-- The texts that a pattern matches. A symbol is any one character but a line feed. -/
inductive LexemeKind.Matches : LexemeKind → List Char → Prop
  | whitespace {text : List Char} (nonempty : text ≠ [])
      (all : ∀ c ∈ text, isSpace c = true) : Matches .whitespace text
  | operator (op : BinaryOp) : Matches (.operator op) [op.symbol]
  | leftParen : Matches .leftParen ['(']
  | rightParen : Matches .rightParen [')']
  | whole {digits : List Char} (whole : IsDigits digits) : Matches .number digits
  | point {digits fraction : List Char} (whole : IsDigits digits)
      (all : ∀ c ∈ fraction, c.isDigit = true) : Matches .number (digits ++ '.' :: fraction)
  | word {text : List Char} (nonempty : text ≠ []) (all : ∀ c ∈ text, c.isAlpha = true) :
      Matches .word text
  | symbol {c : Char} (other : c ≠ '\n') : Matches .symbol [c]

namespace Lexeme

/-- A piece and what follows it are the text that was split. -/
theorem splitFirst_append (c : Char) (rest : List Char) :
    (splitFirst c rest).2.1 ++ (splitFirst c rest).2.2 = c :: rest := by
  unfold splitFirst
  split
  · exact congrArg (c :: ·) List.takeWhile_append_dropWhile
  · split
    · exact Number.splitNumeral_append (c :: rest)
    · split
      · exact congrArg (c :: ·) List.takeWhile_append_dropWhile
      · rfl

theorem splitFirst_ne_nil (c : Char) (rest : List Char) : (splitFirst c rest).2.1 ≠ [] := by
  intro hnil
  have hshorter := splitFirst_shorter c rest
  have happend := congrArg List.length (splitFirst_append c rest)
  rw [hnil, List.nil_append, List.length_cons] at happend
  omega

def leadKind (c : Char) : LexemeKind :=
  if isSpace c then .whitespace else if c.isDigit then .number
  else if c.isAlpha then .word else singleKind c

theorem splitFirst_fst (c : Char) (rest : List Char) : (splitFirst c rest).1 = leadKind c := by
  unfold splitFirst leadKind
  split
  · rfl
  · split
    · rfl
    · split <;> rfl

theorem leadKind_of_isSpace {c : Char} (h : isSpace c = true) : leadKind c = .whitespace :=
  if_pos h

theorem leadKind_of_isDigit {c : Char} (h : c.isDigit = true) : leadKind c = .number := by
  have hspace := isSpace_eq_false (isWordChar_of_isDigit h)
  rw [leadKind, hspace, h]
  rfl

theorem leadKind_of_isAlpha {c : Char} (h : c.isAlpha = true) : leadKind c = .word := by
  have hspace := isSpace_eq_false (isWordChar_of_isAlpha h)
  rw [leadKind, hspace, isDigit_eq_false_of_isAlpha h, h]
  rfl

/-- The first character tells the pattern, if it is not that of symbols. -/
theorem kind_of_matches {kind : LexemeKind} {text : List Char} {c : Char}
    (h : kind.Matches text) (head : text.head? = some c) : kind = .symbol ∨ kind = leadKind c := by
  have hmember : c ∈ text := List.mem_of_mem_head? head
  cases h with
  | whitespace _ all => exact .inr (leadKind_of_isSpace (all c hmember)).symm
  | operator op =>
      cases head
      exact .inr (by cases op <;> rfl)
  | leftParen =>
      cases head
      exact .inr rfl
  | rightParen =>
      cases head
      exact .inr rfl
  | whole whole => exact .inr (leadKind_of_isDigit (whole.2 c hmember)).symm
  | @point digits fraction whole _ =>
      rw [List.head?_append_of_ne_nil digits whole.1] at head
      exact .inr (leadKind_of_isDigit (whole.2 c (List.mem_of_mem_head? head))).symm
  | word _ all => exact .inr (leadKind_of_isAlpha (all c hmember)).symm
  | symbol _ => exact .inl rfl

theorem head?_of_begins {text rest : List Char} {c : Char} (begins : text <+: c :: rest)
    (nonempty : text ≠ []) : text.head? = some c := by
  obtain ⟨first, others, rfl⟩ := List.exists_cons_of_ne_nil nonempty
  rw [List.cons_prefix_cons] at begins
  exact congrArg some begins.1

theorem length_le_takeWhile {p : Char → Bool} {text l : List Char} (begins : text <+: l)
    (all : ∀ c ∈ text, p c = true) : text.length ≤ (l.takeWhile p).length := by
  obtain ⟨more, rfl⟩ := begins
  rw [List.takeWhile_append_of_pos all, List.length_append]
  exact Nat.le_add_right _ _

theorem length_le_splitNumeral_whole {digits l : List Char} (begins : digits <+: l)
    (all : ∀ c ∈ digits, c.isDigit = true) :
    digits.length ≤ ((Number.splitNumeral l).1 ++ (Number.splitNumeral l).2.1).length := by
  rw [List.length_append, Number.splitNumeral_fst]
  exact Nat.le_add_right_of_le (length_le_takeWhile begins all)

/-- If a point and digits follow the digits, the piece goes on as far as they do. -/
theorem length_le_splitNumeral_point {digits fraction l : List Char}
    (begins : digits ++ '.' :: fraction <+: l) (whole : ∀ c ∈ digits, c.isDigit = true)
    (all : ∀ c ∈ fraction, c.isDigit = true) :
    (digits ++ '.' :: fraction).length ≤
      ((Number.splitNumeral l).1 ++ (Number.splitNumeral l).2.1).length := by
  obtain ⟨more, rfl⟩ := begins
  have hfraction := length_le_takeWhile (List.prefix_append fraction more) all
  rw [List.append_assoc, List.cons_append, Number.splitNumeral_digits_point whole]
  simp only [List.length_append, List.length_cons]
  omega

/-- No beginning of a text that matches a pattern is longer than the piece. -/
theorem length_le_of_matches {kind : LexemeKind} {text rest : List Char} {c : Char}
    (h : kind.Matches text) (begins : text <+: c :: rest) :
    text.length ≤ (splitFirst c rest).2.1.length := by
  have hone : 1 ≤ (splitFirst c rest).2.1.length :=
    List.length_pos_of_ne_nil (splitFirst_ne_nil c rest)
  have hmember (nonempty : text ≠ []) : c ∈ text :=
    List.mem_of_mem_head? (head?_of_begins begins nonempty)
  have hnumber (digit : c.isDigit = true) :
      (splitFirst c rest).2.1 =
        (Number.splitNumeral (c :: rest)).1 ++ (Number.splitNumeral (c :: rest)).2.1 := by
    have hspace := isSpace_eq_false (isWordChar_of_isDigit digit)
    rw [splitFirst, hspace, digit]
    rfl
  cases h with
  | whitespace nonempty all =>
      have hspace := all c (hmember nonempty)
      have hlength := length_le_takeWhile begins all
      rw [List.takeWhile_cons_of_pos hspace] at hlength
      rw [splitFirst, if_pos hspace]
      exact hlength
  | word nonempty all =>
      have halpha := all c (hmember nonempty)
      have hspace := isSpace_eq_false (isWordChar_of_isAlpha halpha)
      have hlength := length_le_takeWhile begins all
      rw [List.takeWhile_cons_of_pos halpha] at hlength
      rw [splitFirst, hspace, isDigit_eq_false_of_isAlpha halpha, halpha]
      exact hlength
  | whole whole =>
      rw [hnumber (whole.2 c (hmember whole.1))]
      exact length_le_splitNumeral_whole begins whole.2
  | @point digits fraction whole all =>
      have hhead : digits.head? = some c :=
        head?_of_begins ((List.prefix_append _ _).trans begins) whole.1
      rw [hnumber (whole.2 c (List.mem_of_mem_head? hhead))]
      exact length_le_splitNumeral_point begins whole.2 all
  | _ => exact hone

theorem matches_splitNumeral {c : Char} {rest : List Char} (digit : c.isDigit = true) :
    LexemeKind.number.Matches
      ((Number.splitNumeral (c :: rest)).1 ++ (Number.splitNumeral (c :: rest)).2.1) := by
  have hwhole : IsDigits ((c :: rest).takeWhile Char.isDigit) := by
    refine ⟨?_, List.all_eq_true.mp List.all_takeWhile⟩
    rw [List.takeWhile_cons_of_pos digit]
    exact List.cons_ne_nil _ _
  obtain ⟨-, hsplit⟩ | ⟨more, -, hsplit⟩ := Number.splitNumeral_cases (c :: rest)
  · rw [hsplit, List.append_nil]
    exact .whole hwhole
  · rw [hsplit]
    exact .point hwhole (List.all_eq_true.mp List.all_takeWhile)

theorem matches_singleKind {c : Char} (other : c ≠ '\n') : (singleKind c).Matches [c] := by
  unfold singleKind
  split
  · exact .operator .add
  · exact .operator .sub
  · exact .operator .mul
  · exact .operator .div
  · exact .operator .pow
  · exact .leftParen
  · exact .rightParen
  · exact .symbol other

theorem matches_splitFirst (c : Char) (rest : List Char) :
    (splitFirst c rest).1.Matches (splitFirst c rest).2.1 := by
  have hrun {p : Char → Bool} (h : p c = true) : ∀ d ∈ c :: rest.takeWhile p, p d = true :=
    List.forall_mem_cons.mpr ⟨h, List.all_eq_true.mp List.all_takeWhile⟩
  unfold splitFirst
  split
  · rename_i hspace
    exact .whitespace (List.cons_ne_nil _ _) (hrun hspace)
  · rename_i hspace
    split
    · rename_i hdigit
      exact matches_splitNumeral hdigit
    · split
      · rename_i halpha
        exact .word (List.cons_ne_nil _ _) (hrun halpha)
      · apply matches_singleKind
        rintro rfl
        exact hspace rfl

end Lexeme

/-- The text is the longest that a pattern matches before the rest, and the pattern is that
of the kind. Apart from the pattern of symbols, which gives way, no other is as long. -/
structure LexemeKind.LongestMatch (kind : LexemeKind) (text after : List Char) : Prop where
  matched : kind.Matches text
  longest : ∀ other begins, LexemeKind.Matches other begins → begins <+: text ++ after →
    begins.length ≤ text.length
  unique : ∀ other begins, LexemeKind.Matches other begins → begins <+: text ++ after →
    begins.length = text.length → other = .symbol ∨ other = kind

theorem Lexeme.longestMatch_splitFirst (c : Char) (rest : List Char) :
    (splitFirst c rest).1.LongestMatch (splitFirst c rest).2.1 (splitFirst c rest).2.2 where
  matched := matches_splitFirst c rest
  longest other begins hmatches hbegins := by
    rw [splitFirst_append] at hbegins
    exact length_le_of_matches hmatches hbegins
  unique other begins hmatches hbegins hlength := by
    rw [splitFirst_append] at hbegins
    have hnonempty : begins ≠ [] := by
      rw [← List.length_pos_iff, hlength]
      exact List.length_pos_of_ne_nil (splitFirst_ne_nil c rest)
    rw [splitFirst_fst]
    exact kind_of_matches hmatches (head?_of_begins hbegins hnonempty)

end Formula
