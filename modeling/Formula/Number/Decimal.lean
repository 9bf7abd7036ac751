import Formula.Number.Binary

/-!
Decimal numerals. A numeral is read as an exact decimal and rounded once, so the
number read is the nearest one to what is written.
-/

namespace Formula

/-- The exact decimal `digits * 10 ^ exponent`. -/
structure Decimal where
  digits : Nat
  exponent : Int
deriving DecidableEq

namespace Decimal

def magnitude (decimal : Decimal) : Nat :=
  match decimal.exponent with
  | .ofNat e => Number.nearest (decimal.digits * Nat.pow 10 e) 1
  | .negSucc e => Number.nearest decimal.digits (Nat.pow 10 (e + 1))

/-- An exponent past these bounds only says that the number is infinite or zero, as
the bounds themselves do: fewer than `count` digits are too few to reach back. -/
def clampExponent (count : Nat) (exponent : Int) : Int :=
  max (-(count + 400 : Int)) (min exponent 400)

def ofDigits (whole fraction : List Char) (exponent : Int) : Decimal where
  digits := Nat.ofDigitChars 10 (whole ++ fraction) 0
  exponent := clampExponent (whole.length + fraction.length) (exponent - fraction.length)

end Decimal

namespace Number

def splitSign : List Char → Bool × List Char
  | '-' :: rest => (true, rest)
  | '+' :: rest => (false, rest)
  | text => (false, text)

/-- Reads what follows the digits of a numeral: nothing, or `e`, an optional sign and
digits. -/
def readExponent? : List Char → Option Int
  | [] => some 0
  | mark :: text =>
      let (signed, digits) := splitSign text
      if mark.toLower = 'e' ∧ digits ≠ [] ∧ digits.all Char.isDigit then
        let exponent : Int := Nat.ofDigitChars 10 digits 0
        some (if signed then -exponent else exponent)
      else none

/-- Splits `12.5e3` into `12`, `.5` and `e3`. A point is split off with or without digits
after it. -/
def splitNumeral (text : List Char) : List Char × List Char × List Char :=
  let whole := text.takeWhile Char.isDigit
  match text.dropWhile Char.isDigit with
  | '.' :: rest => (whole, '.' :: rest.takeWhile Char.isDigit, rest.dropWhile Char.isDigit)
  | rest => (whole, [], rest)

section Pieces

variable {text : List Char}

theorem splitNumeral_of_point {rest : List Char}
    (point : text.dropWhile Char.isDigit = '.' :: rest) :
    splitNumeral text = (text.takeWhile Char.isDigit, '.' :: rest.takeWhile Char.isDigit,
      rest.dropWhile Char.isDigit) := by
  simp only [splitNumeral, point]

theorem splitNumeral_of_no_point (point : (text.dropWhile Char.isDigit).head? ≠ some '.') :
    splitNumeral text = (text.takeWhile Char.isDigit, [], text.dropWhile Char.isDigit) := by
  unfold splitNumeral
  split
  · rename_i rest hrest
    rw [hrest] at point
    exact absurd rfl point
  · rfl

variable (text)

theorem splitNumeral_cases :
    (text.dropWhile Char.isDigit).head? ≠ some '.' ∧
        splitNumeral text = (text.takeWhile Char.isDigit, [], text.dropWhile Char.isDigit) ∨
      ∃ rest, text.dropWhile Char.isDigit = '.' :: rest ∧
        splitNumeral text = (text.takeWhile Char.isDigit, '.' :: rest.takeWhile Char.isDigit,
          rest.dropWhile Char.isDigit) := by
  by_cases point : (text.dropWhile Char.isDigit).head? = some '.'
  · obtain ⟨rest, hrest⟩ := List.head?_eq_some_iff.mp point
    exact .inr ⟨rest, hrest, splitNumeral_of_point hrest⟩
  · exact .inl ⟨point, splitNumeral_of_no_point point⟩

theorem splitNumeral_fst : (splitNumeral text).1 = text.takeWhile Char.isDigit := by
  obtain ⟨-, hsplit⟩ | ⟨rest, -, hsplit⟩ := splitNumeral_cases text
  · rw [hsplit]
  · rw [hsplit]

/-- The pieces of a numeral and what follows it are the text that was split. -/
theorem splitNumeral_append :
    (splitNumeral text).1 ++ (splitNumeral text).2.1 ++ (splitNumeral text).2.2 = text := by
  have hwhole := List.takeWhile_append_dropWhile (p := Char.isDigit) (l := text)
  obtain ⟨-, hsplit⟩ | ⟨rest, hrest, hsplit⟩ := splitNumeral_cases text
  · rw [hsplit, List.append_nil, hwhole]
  · rw [hrest] at hwhole
    rw [hsplit, List.append_assoc, List.cons_append, List.takeWhile_append_dropWhile, hwhole]

end Pieces

/-- Reads a numeral without a sign. At least one digit stands before or after the
point. -/
def readDecimal? (text : List Char) : Option Decimal :=
  let (whole, point, rest) := splitNumeral text
  let fraction := point.tail
  if whole = [] ∧ fraction = [] then none
  else (readExponent? rest).map (Decimal.ofDigits whole fraction)

/-- Reads a number: an optional sign, then `inf`, `infinity` or `nan` in any case, or
a numeral. Nothing may stand around it. -/
def read? (text : List Char) : Option Float :=
  let (signed, body) := splitSign text
  let word := body.map Char.toLower
  if word = "inf".toList ∨ word = "infinity".toList then
    some (ofMagnitude signed infinityMagnitude)
  else if word = "nan".toList then some nan
  else (readDecimal? body).map fun decimal => ofMagnitude signed decimal.magnitude

end Number

end Formula
