import Formula.Number.Shortest

/-!
The written form of a number: the shortest decimal that reads back, always with every
place written out and never with an exponent.
-/

namespace Formula

def Decimal.text (decimal : Decimal) : List Char :=
  match decimal.exponent with
  | .ofNat e => Nat.toDigits 10 (decimal.digits * Nat.pow 10 e)
  | .negSucc e =>
      let scale := Nat.pow 10 (e + 1)
      Nat.toDigits 10 (decimal.digits / scale) ++
        '.' :: (Nat.toDigits 10 (decimal.digits % scale)).leftpad (e + 1) '0'

namespace Number

def magnitudeText (magnitude : Nat) : List Char :=
  if magnitude = infinityMagnitude then "inf".toList else (Decimal.shortest magnitude).text

def chars (value : Float) : List Char :=
  if value.isNaN then "NaN".toList
  else if isSigned value then '-' :: magnitudeText (magnitude value)
  else magnitudeText (magnitude value)

def text (value : Float) : String := .ofList (chars value)

/-- Rounds to two decimal places, in the arithmetic of numbers: the product and the
quotient are rounded too. -/
def roundHundredths (value : Float) : Float := roundHalfAway (value * 100) / 100

end Number

end Formula
