import Formula.Number.Text
import Formula.Proofs.Cut
import Formula.Proofs.Number.Layout
import Formula.Proofs.Number.Nearest

/-!
The text of a number reads back. The text of a finite magnitude is a numeral: digits, and
perhaps a point with digits after it. A numeral has no sign and is no word, so it is read
as a decimal, and the decimal read from a text has the magnitude of the decimal that was
written. A number below zero is written as its negation after a minus sign.
-/

namespace Formula

def IsDigits (text : List Char) : Prop := text ≠ [] ∧ ∀ c ∈ text, c.isDigit = true

inductive Numeral : List Char → Prop
  | whole {digits : List Char} (digits_isDigits : IsDigits digits) : Numeral digits
  | point {whole fraction : List Char} (whole_isDigits : IsDigits whole)
      (fraction_isDigits : IsDigits fraction) : Numeral (whole ++ '.' :: fraction)

theorem Numeral.exists_digit_cons {text : List Char} (h : Numeral text) :
    ∃ c rest, c.isDigit = true ∧ text = c :: rest := by
  have hhead : ∀ digits, IsDigits digits → ∃ c rest, c.isDigit = true ∧ digits = c :: rest := by
    rintro digits ⟨hnonempty, hdigits⟩
    obtain ⟨c, rest, rfl⟩ := List.exists_cons_of_ne_nil hnonempty
    exact ⟨c, rest, hdigits c List.mem_cons_self, rfl⟩
  cases h with
  | whole hdigits => exact hhead text hdigits
  | @point whole fraction hwhole _ =>
      obtain ⟨c, rest, hdigit, rfl⟩ := hhead whole hwhole
      exact ⟨c, rest ++ '.' :: fraction, hdigit, rfl⟩

theorem Numeral.isDigit_or_eq {text : List Char} (h : Numeral text) :
    ∀ c ∈ text, c.isDigit = true ∨ c = '.' := by
  intro c member
  cases h with
  | whole hdigits => exact .inl (hdigits.2 c member)
  | point hwhole hfraction =>
      rw [List.mem_append, List.mem_cons] at member
      rcases member with hmember | rfl | hmember
      · exact .inl (hwhole.2 c hmember)
      · exact .inr rfl
      · exact .inl (hfraction.2 c hmember)

section Digits

theorem isDigits_toDigits (n : Nat) : IsDigits (Nat.toDigits 10 n) :=
  ⟨Nat.toDigits_ne_nil, fun _ member => Nat.isDigit_of_mem_toDigits (by decide) (by decide) member⟩

theorem isDigits_leftpad {digits : List Char} (h : IsDigits digits) (width : Nat) :
    IsDigits (digits.leftpad width '0') := by
  obtain ⟨hnonempty, hdigits⟩ := h
  unfold List.leftpad
  constructor
  · exact List.append_ne_nil_of_right_ne_nil _ hnonempty
  · intro c member
    rw [List.mem_append] at member
    rcases member with hzero | hdigit
    · rw [List.eq_of_mem_replicate hzero]
      rfl
    · exact hdigits c hdigit

/-- Zeros before the digits of a number do not count. -/
theorem ofDigitChars_leftpad (n width : Nat) :
    Nat.ofDigitChars 10 ((Nat.toDigits 10 n).leftpad width '0') 0 = n := by
  rw [List.leftpad, Nat.ofDigitChars_append, Nat.ofDigitChars_replicate_zero, Nat.mul_zero]
  exact Nat.ofDigitChars_ten_toDigits

end Digits

namespace Decimal

theorem numeral_text (decimal : Decimal) : Numeral decimal.text := by
  unfold text
  split
  · exact .whole (isDigits_toDigits _)
  · exact .point (isDigits_toDigits _) (isDigits_leftpad (isDigits_toDigits _) _)

end Decimal

namespace Number

section Split

variable {whole fraction rest : List Char}

theorem splitNumeral_whole (hwhole : IsDigits whole)
    (closes : ∀ c ∈ rest.head?, c.isDigit = false ∧ c ≠ '.') :
    splitNumeral (whole ++ rest) = (whole, [], rest) := by
  obtain ⟨htake, hdrop⟩ := cut hwhole.2 fun c member => (closes c member).1
  have hnone : ((whole ++ rest).dropWhile Char.isDigit).head? ≠ some '.' := by
    rw [hdrop]
    exact fun point => (closes '.' point).2 rfl
  rw [splitNumeral_of_no_point hnone, htake, hdrop]

theorem splitNumeral_digits_point (hwhole : ∀ c ∈ whole, c.isDigit = true) (rest : List Char) :
    splitNumeral (whole ++ '.' :: rest) =
      (whole, '.' :: rest.takeWhile Char.isDigit, rest.dropWhile Char.isDigit) := by
  obtain ⟨htake, hdrop⟩ := @cut Char whole ('.' :: rest) Char.isDigit hwhole
    (fun c member => by cases member; rfl)
  rw [splitNumeral_of_point hdrop, htake]

theorem splitNumeral_point (hwhole : IsDigits whole) (hfraction : ∀ c ∈ fraction, c.isDigit = true)
    (closes : ∀ c ∈ rest.head?, c.isDigit = false) :
    splitNumeral (whole ++ '.' :: (fraction ++ rest)) = (whole, '.' :: fraction, rest) := by
  obtain ⟨htake, hdrop⟩ := cut hfraction closes
  rw [splitNumeral_digits_point hwhole.2, htake, hdrop]

/-- Digits alone are read as a decimal without an exponent. -/
theorem readDecimal?_digits (hwhole : IsDigits whole) :
    readDecimal? whole = some (Decimal.ofDigits whole [] 0) := by
  have hsplit := @splitNumeral_whole whole [] hwhole (fun c member => nomatch member)
  rw [List.append_nil] at hsplit
  simp only [readDecimal?, hsplit, hwhole.1, false_and, ↓reduceIte, readExponent?,
    Option.map_some, List.tail_nil]

/-- And so are digits before a point, with digits after it or none. -/
theorem readDecimal?_digits_point (hwhole : IsDigits whole)
    (hfraction : ∀ c ∈ fraction, c.isDigit = true) :
    readDecimal? (whole ++ '.' :: fraction) = some (Decimal.ofDigits whole fraction 0) := by
  have hsplit := @splitNumeral_point whole fraction [] hwhole hfraction
    (fun c member => nomatch member)
  rw [List.append_nil] at hsplit
  simp only [readDecimal?, hsplit, hwhole.1, false_and, ↓reduceIte, readExponent?,
    Option.map_some, List.tail_cons]

end Split

theorem clampExponent_zero (count : Nat) : Decimal.clampExponent count 0 = 0 := by
  unfold Decimal.clampExponent
  omega

theorem clampExponent_neg {count places : Nat} (h : places ≤ count) :
    Decimal.clampExponent count (-places) = -places := by
  unfold Decimal.clampExponent
  omega

/-- A whole number is read with all its zeros. -/
theorem readDecimal?_whole (n : Nat) : readDecimal? (Nat.toDigits 10 n) = some ⟨n, 0⟩ := by
  rw [readDecimal?_digits (isDigits_toDigits n)]
  simp only [Decimal.ofDigits, List.append_nil, List.length_nil, Nat.cast_zero, sub_zero,
    clampExponent_zero, Nat.ofDigitChars_ten_toDigits]

/-- A decimal with digits after the point is read as it is. -/
theorem readDecimal?_point (digits e : Nat) :
    readDecimal? (Decimal.mk digits (.negSucc e)).text = some ⟨digits, .negSucc e⟩ := by
  have hrest : digits % 10 ^ (e + 1) < 10 ^ (e + 1) := Nat.mod_lt _ (Nat.pow_pos (by decide))
  have hwhole := isDigits_toDigits (digits / 10 ^ (e + 1))
  have hfraction := isDigits_leftpad (isDigits_toDigits (digits % 10 ^ (e + 1))) (e + 1)
  -- The zeros fill the fraction up to exactly as many digits as the exponent says.
  have hlength : ((Nat.toDigits 10 (digits % 10 ^ (e + 1))).leftpad (e + 1) '0').length = e + 1 := by
    rw [List.length_leftpad, Nat.max_eq_left]
    exact (Nat.length_toDigits_le_iff (by decide) (Nat.succ_pos e)).mpr hrest
  have hvalue : Nat.ofDigitChars 10 (Nat.toDigits 10 (digits / 10 ^ (e + 1)) ++
      (Nat.toDigits 10 (digits % 10 ^ (e + 1))).leftpad (e + 1) '0') 0 = digits := by
    rw [Nat.ofDigitChars_append, Nat.ofDigitChars_eq_ofDigitChars_zero, hlength,
      ofDigitChars_leftpad, Nat.ofDigitChars_ten_toDigits]
    exact Nat.div_add_mod digits (10 ^ (e + 1))
  change readDecimal? (Nat.toDigits 10 (digits / 10 ^ (e + 1)) ++
    '.' :: (Nat.toDigits 10 (digits % 10 ^ (e + 1))).leftpad (e + 1) '0') = _
  rw [readDecimal?_digits_point hwhole hfraction.2]
  simp only [Decimal.ofDigits, hvalue, hlength, zero_sub]
  rw [clampExponent_neg (by omega)]
  rfl

/-- The decimal that a text is read as has the magnitude of the one that was written. -/
theorem readDecimal?_text (decimal : Decimal) :
    ∃ read, readDecimal? decimal.text = some read ∧ read.magnitude = decimal.magnitude := by
  obtain ⟨digits, exponent⟩ := decimal
  cases exponent with
  | ofNat e =>
      refine ⟨⟨digits * 10 ^ e, 0⟩, readDecimal?_whole (digits * 10 ^ e), ?_⟩
      change nearest (digits * 10 ^ e * 1) 1 = nearest (digits * 10 ^ e) 1
      rw [Nat.mul_one]
  | negSucc e => exact ⟨⟨digits, .negSucc e⟩, readDecimal?_point digits e, rfl⟩

theorem digit_ne {c : Char} (h : c.isDigit = true) :
    c ≠ '-' ∧ c ≠ '+' ∧ c.toLower ≠ 'i' ∧ c.toLower ≠ 'n' := by
  have hlower : c.toLower = c := by
    apply Char.toLower_eq_of_not_isUpper
    simp only [Char.isDigit, Char.isUpper, Bool.and_eq_true, decide_eq_true_eq] at h ⊢
    rintro ⟨hupper, -⟩
    exact absurd (UInt32.le_trans hupper h.2) (by decide)
  rw [hlower]
  refine ⟨?_, ?_, ?_, ?_⟩ <;>
  · rintro rfl
    cases h

theorem splitSign_of_ne {c : Char} (minus : c ≠ '-') (plus : c ≠ '+') (rest : List Char) :
    splitSign (c :: rest) = (false, c :: rest) := by
  unfold splitSign
  split
  · rename_i heq
    exact absurd (List.cons.inj heq).1 minus
  · rename_i heq
    exact absurd (List.cons.inj heq).1 plus
  · rfl

/-- What begins with a digit has no sign and is no word. -/
theorem read?_digit {c : Char} (digit : c.isDigit = true) (rest : List Char) :
    read? (c :: rest) =
      (readDecimal? (c :: rest)).map fun decimal => ofMagnitude false decimal.magnitude := by
  obtain ⟨hminus, hplus, hinf, hnan⟩ := digit_ne digit
  have hsign := splitSign_of_ne hminus hplus rest
  have hword : ∀ first word, c.toLower ≠ first → (c :: rest).map Char.toLower ≠ first :: word :=
    fun first word hne heq => hne (List.cons.inj heq).1
  unfold read?
  simp only [hsign]
  rw [if_neg, if_neg]
  · exact hword 'n' ['a', 'n'] hnan
  · rintro (heq | heq)
    · exact hword 'i' ['n', 'f'] hinf heq
    · exact hword 'i' ['n', 'f', 'i', 'n', 'i', 't', 'y'] hinf heq

theorem read?_numeral {text : List Char} (h : Numeral text) :
    read? text = (readDecimal? text).map fun decimal => ofMagnitude false decimal.magnitude := by
  obtain ⟨c, rest, hdigit, rfl⟩ := h.exists_digit_cons
  exact read?_digit hdigit rest

/-- Digits can be read, and so can digits before a point, with digits after it or none. -/
theorem exists_read_of_isDigits {whole : List Char} (h : IsDigits whole) :
    (∃ value, read? whole = some value) ∧
      ∀ fraction : List Char, (∀ c ∈ fraction, c.isDigit = true) →
        ∃ value, read? (whole ++ '.' :: fraction) = some value := by
  obtain ⟨c, rest, rfl⟩ := List.exists_cons_of_ne_nil h.1
  have hdigit : c.isDigit = true := h.2 c List.mem_cons_self
  constructor
  · rw [read?_digit hdigit, readDecimal?_digits h]
    exact ⟨_, rfl⟩
  · intro fraction hfraction
    rw [List.cons_append, read?_digit hdigit, ← List.cons_append,
      readDecimal?_digits_point h hfraction]
    exact ⟨_, rfl⟩

/-- The text of a finite magnitude is a numeral that reads back. -/
theorem magnitudeText_spec {magnitude : Nat} (finite : magnitude < infinityMagnitude) :
    Numeral (magnitudeText magnitude) ∧
      read? (magnitudeText magnitude) = some (ofMagnitude false magnitude) := by
  have htext : magnitudeText magnitude = (Decimal.shortest magnitude).text :=
    if_neg (Nat.ne_of_lt finite)
  have hnumeral := Decimal.numeral_text (Decimal.shortest magnitude)
  obtain ⟨read, hread, hmagnitude⟩ := readDecimal?_text (Decimal.shortest magnitude)
  rw [htext]
  refine ⟨hnumeral, ?_⟩
  rw [read?_numeral hnumeral, hread, Option.map_some, hmagnitude,
    Decimal.magnitude_shortest finite]

variable {value : Float}

/-- The text of a finite number without a sign is a numeral that reads back. -/
theorem numeral_chars_of_unsigned (finite : value.isFinite = true)
    (unsigned : isSigned value = false) :
    Numeral (chars value) ∧ read? (chars value) = some value := by
  have hchars : chars value = magnitudeText (magnitude value) := by
    simp only [chars, isNaN_eq_false finite, unsigned, Bool.false_eq_true, ↓reduceIte]
  rw [hchars]
  have hspec := magnitudeText_spec (magnitude_lt_infinity value finite)
  rwa [ofMagnitude_magnitude unsigned] at hspec

/-- The text of a finite number with a sign, negative zero included, is a minus sign and a
numeral that reads back as the negation. -/
theorem exists_chars_of_isSigned (finite : value.isFinite = true)
    (signed : isSigned value = true) :
    ∃ text, chars value = '-' :: text ∧ Numeral text ∧ read? text = some (-value) := by
  refine ⟨magnitudeText (magnitude value), ?_, ?_⟩
  · simp only [chars, isNaN_eq_false finite, signed, Bool.false_eq_true, ↓reduceIte]
  · have hspec := magnitudeText_spec (magnitude_lt_infinity value finite)
    rwa [ofMagnitude_magnitude_of_isSigned signed] at hspec

/-- The text of a finite number that is not below zero, and not negative zero, is a
numeral that reads back. -/
theorem numeral_chars (finite : value.isFinite = true) (notBelow : ¬ value < 0)
    (notZero : value ≠ -0) : Numeral (chars value) ∧ read? (chars value) = some value :=
  numeral_chars_of_unsigned finite (isSigned_eq_false finite notBelow notZero)

/-- The text of a finite number below zero is a minus sign and a numeral that reads back
as the negation. -/
theorem exists_chars_of_lt_zero (finite : value.isFinite = true) (below : value < 0) :
    ∃ text, chars value = '-' :: text ∧ Numeral text ∧ read? text = some (-value) :=
  exists_chars_of_isSigned finite (isSigned_of_lt_zero below)

end Number

end Formula
