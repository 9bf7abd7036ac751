import Formula.Proofs.Token.Tiling

/-!
Where a text falls apart. A piece goes on from one character to the next only if both are
space, both are letters, or both belong to a number. Between any other two characters there
is a seam: what stands before it and what comes after it have the same pieces together as
apart, but for what the last piece before the seam sees behind it.
-/

namespace Formula.Lexeme

/-- Whether some piece may go on from the one character to the other. A point counts as
part of a number, though not every point is. -/
def joins (last next : Char) : Bool :=
  (isSpace last && isSpace next) || (last.isAlpha && next.isAlpha) ||
    ((last.isDigit || last == '.') && (next.isDigit || next == '.'))

/-- No piece goes on from the one text into the other. -/
def Seam (a b : List Char) : Prop :=
  ∀ last ∈ a.getLast?, ∀ next ∈ b.head?, joins last next = false

section Joins

variable {last next : Char} (h : joins last next = false)
include h

theorem isSpace_of_joins (space : isSpace last = true) : isSpace next = false := by
  simp only [joins, Bool.or_eq_false_iff, Bool.and_eq_false_iff] at h
  exact h.1.1.resolve_left (by rw [space]; exact Bool.noConfusion)

theorem isAlpha_of_joins (letter : last.isAlpha = true) : next.isAlpha = false := by
  simp only [joins, Bool.or_eq_false_iff, Bool.and_eq_false_iff] at h
  exact h.1.2.resolve_left (by rw [letter]; exact Bool.noConfusion)

theorem numeric_of_joins (numeric : last.isDigit = true ∨ last = '.') :
    next.isDigit = false ∧ next ≠ '.' := by
  have hnumeric : (last.isDigit || last == '.') = true := by
    simpa only [Bool.or_eq_true, beq_iff_eq] using numeric
  simp only [joins, hnumeric, Bool.true_and, Bool.or_eq_false_iff, beq_eq_false_iff_ne] at h
  exact h.2

end Joins

theorem isWordChar_of_isSpace {c : Char} (space : isSpace c = true) : isWordChar c = false := by
  rw [Bool.eq_false_iff]
  intro word
  rw [isSpace_eq_false word] at space
  cases space

/-- Space joins nothing but space. -/
theorem joins_of_isSpace {last next : Char} (other : isSpace last = false)
    (space : isSpace next = true) : joins last next = false := by
  have hword := isWordChar_of_isSpace space
  have hpoint : (next == '.') = false := by
    rw [beq_eq_false_iff_ne]
    rintro rfl
    cases space
  rw [joins, other, isAlpha_eq_false hword, isDigit_eq_false hword, hpoint]
  simp only [Bool.false_and, Bool.and_false, Bool.or_false]

/-- A letter is joined by letters only. -/
theorem joins_of_isAlpha {last next : Char} (other : last.isAlpha = false)
    (letter : next.isAlpha = true) : joins last next = false := by
  have hspace := isSpace_eq_false (isWordChar_of_isAlpha letter)
  have hpoint : (next == '.') = false := by
    rw [beq_eq_false_iff_ne]
    rintro rfl
    cases letter
  rw [joins, other, hspace, isDigit_eq_false_of_isAlpha letter, hpoint]
  simp only [Bool.false_and, Bool.and_false, Bool.or_false]

namespace Seam

variable {c : Char} {rest b : List Char}

theorem of_append {text after : List Char} (seam : Seam (text ++ after) b)
    (nonempty : after ≠ []) : Seam after b := by
  intro last member
  apply seam last
  rw [List.getLast?_append_of_ne_nil text nonempty]
  exact member

theorem exists_last (seam : Seam (c :: rest) b) :
    ∃ last ∈ c :: rest, ∀ next ∈ b.head?, joins last next = false := by
  have hnonempty : c :: rest ≠ [] := List.cons_ne_nil c rest
  exact ⟨_, List.getLast_mem hnonempty, seam _ (List.getLast?_eq_some_getLast hnonempty)⟩

/-- A run of characters ends at a seam, if it comes as far. -/
theorem cut_run {p : Char → Bool} (seam : Seam (c :: rest) b) (first : p c = true)
    (apart : ∀ {last next}, joins last next = false → p last = true → p next = false) :
    (rest ++ b).takeWhile p = rest.takeWhile p ∧
      (rest ++ b).dropWhile p = rest.dropWhile p ++ b := by
  obtain ⟨last, hlast, hjoins⟩ := seam.exists_last
  apply cut_append_of_all rest
  intro all next member
  have hall : ∀ d ∈ c :: rest, p d = true := List.forall_mem_cons.mpr ⟨first, all⟩
  exact apart (hjoins next member) (hall last hlast)

/-- A numeral ends at a seam too, whether it comes there with a digit or with its point. -/
theorem splitNumeral_append (seam : Seam (c :: rest) b) (digit : c.isDigit = true) :
    Number.splitNumeral (c :: rest ++ b) =
      ((Number.splitNumeral (c :: rest)).1, (Number.splitNumeral (c :: rest)).2.1,
        (Number.splitNumeral (c :: rest)).2.2 ++ b) := by
  have hrun := seam.cut_run digit fun h digit => (numeric_of_joins h (.inl digit)).1
  have htake : (c :: rest ++ b).takeWhile Char.isDigit = (c :: rest).takeWhile Char.isDigit := by
    rw [List.cons_append, List.takeWhile_cons_of_pos digit, hrun.1,
      List.takeWhile_cons_of_pos digit]
  have hdrop : (c :: rest ++ b).dropWhile Char.isDigit =
      (c :: rest).dropWhile Char.isDigit ++ b := by
    rw [List.cons_append, List.dropWhile_cons_of_pos digit, hrun.2,
      List.dropWhile_cons_of_pos digit]
  obtain ⟨hnone, hsplit⟩ | ⟨more, hmore, hsplit⟩ := Number.splitNumeral_cases (c :: rest)
  · have hnext : ((c :: rest ++ b).dropWhile Char.isDigit).head? ≠ some '.' := by
      rw [hdrop]
      cases hafter : (c :: rest).dropWhile Char.isDigit with
      | nil =>
          -- The digits come up to the seam, so no point of the other text goes with them.
          intro hpoint
          obtain ⟨last, hlast, hjoins⟩ := seam.exists_last
          have hdigit := List.dropWhile_eq_nil_iff.mp hafter last hlast
          exact (numeric_of_joins (hjoins '.' hpoint) (.inl hdigit)).2 rfl
      | cons first others =>
          rw [hafter] at hnone
          exact hnone
    rw [Number.splitNumeral_of_no_point hnext, hsplit, htake, hdrop]
  · have hnext : (c :: rest ++ b).dropWhile Char.isDigit = '.' :: (more ++ b) := by
      rw [hdrop, hmore, List.cons_append]
    have hlater : Seam ('.' :: more) b := by
      rw [← List.takeWhile_append_dropWhile (p := Char.isDigit) (l := c :: rest), hmore] at seam
      exact seam.of_append (List.cons_ne_nil '.' more)
    obtain ⟨last, hlast, hjoins⟩ := hlater.exists_last
    obtain ⟨hfraction, hafter⟩ : (more ++ b).takeWhile Char.isDigit = more.takeWhile Char.isDigit ∧
        (more ++ b).dropWhile Char.isDigit = more.dropWhile Char.isDigit ++ b := by
      apply cut_append_of_all more
      intro all next member
      have hnumeric : last.isDigit = true ∨ last = '.' :=
        (List.mem_cons.mp hlast).symm.imp (all last) id
      exact (numeric_of_joins (hjoins next member) hnumeric).1
    rw [Number.splitNumeral_of_point hnext, hsplit, htake, hfraction, hafter]

/-- The first piece of a text does not reach over a seam. -/
theorem splitFirst_append (seam : Seam (c :: rest) b) :
    splitFirst c (rest ++ b) =
      ((splitFirst c rest).1, (splitFirst c rest).2.1, (splitFirst c rest).2.2 ++ b) := by
  unfold splitFirst
  split
  · rename_i space
    obtain ⟨hrun, hafter⟩ := seam.cut_run space isSpace_of_joins
    rw [hrun, hafter]
  · split
    · rename_i digit
      rw [← List.cons_append, seam.splitNumeral_append digit]
    · split
      · rename_i letter
        obtain ⟨hrun, hafter⟩ := seam.cut_run letter isAlpha_of_joins
        rw [hrun, hafter]
      · rfl

end Seam

def followedBy (next : Option Char) : List Lexeme → List Lexeme
  | [] => []
  | [last] => [{ last with after := next }]
  | lexeme :: later :: rest => lexeme :: followedBy next (later :: rest)

theorem followedBy_cons (next : Option Char) (lexeme : Lexeme) {rest : List Lexeme}
    (nonempty : rest ≠ []) : followedBy next (lexeme :: rest) = lexeme :: followedBy next rest := by
  cases rest with
  | nil => exact absurd rfl nonempty
  | cons later rest => rfl

theorem scanFrom_ne_nil (before : Option Char) (offset : Nat) {text : List Char}
    (nonempty : text ≠ []) : scanFrom before offset text ≠ [] := by
  cases text with
  | nil => exact absurd rfl nonempty
  | cons c rest =>
      rw [scanFrom]
      exact List.cons_ne_nil _ _

/-- A text falls apart at a seam. -/
theorem scanFrom_append (before : Option Char) (offset : Nat) {a b : List Char}
    (seam : Seam a b) :
    scanFrom before offset (a ++ b) =
      followedBy b.head? (scanFrom before offset a) ++
        scanFrom (a.getLast?.or before) (offset + byteLength a) b := by
  fun_induction scanFrom before offset a with
  | case1 => rfl
  | case2 before offset c rest piece stop ih =>
      have hpiece : piece.2.1 ++ piece.2.2 = c :: rest := splitFirst_append c rest
      have hsplit : splitFirst c (rest ++ b) = (piece.1, piece.2.1, piece.2.2 ++ b) :=
        seam.splitFirst_append
      rw [List.cons_append, scanFrom, hsplit]
      dsimp only
      cases hafter : piece.2.2 with
      | nil =>
          rw [hafter, List.append_nil] at hpiece
          have hlast : (c :: rest).getLast?.or before = (c :: rest).getLast? := by
            rw [List.getLast?_cons, Option.some_or]
          have hstop : stop = offset + byteLength (c :: rest) := by rw [← hpiece]
          rw [scanFrom, hpiece, hlast, hstop]
          rfl
      | cons next more =>
          have hnonempty : next :: more ≠ [] := List.cons_ne_nil next more
          rw [hafter] at hpiece ih
          have hlater : Seam (next :: more) b := by
            rw [← hpiece] at seam
            exact seam.of_append hnonempty
          have hlast : ((next :: more).getLast?).or piece.2.1.getLast? =
              (c :: rest).getLast?.or before := by
            rw [← hpiece, List.getLast?_append_of_ne_nil _ hnonempty, List.getLast?_cons,
              Option.some_or, Option.some_or]
          have hlength : stop + byteLength (next :: more) = offset + byteLength (c :: rest) := by
            rw [← hpiece, byteLength_append, ← Nat.add_assoc]
          rw [followedBy_cons _ _ (scanFrom_ne_nil _ _ hnonempty), ih hlater, hlast, hlength]
          rfl

end Formula.Lexeme
