import Formula.Number.Binary

/-!
Powers. The cases that follow from limits alone are decided here: an exponent of zero,
a base of one, and a base of zero, where the parity of the exponent decides the sign.
-/

namespace Formula.Number

def isOddInteger (value : Float) : Bool :=
  let units := units (magnitude value)
  magnitude value < infinityMagnitude && units % Nat.pow 2 1074 == 0 && units / Nat.pow 2 1074 % 2 == 1

/-- A power of zero. An odd exponent keeps the sign of the zero and any other loses it;
a negative exponent turns the zero into an infinity. -/
def zeroPower (base exponent : Float) : Float :=
  let signed := isSigned base && isOddInteger exponent
  if exponent < 0 then ofMagnitude signed infinityMagnitude else ofMagnitude signed 0

def power (base exponent : Float) : Float :=
  if exponent == 0 || base == 1 then 1
  else if base.isNaN || exponent.isNaN then nan
  else if base == 0 then zeroPower base exponent
  else base ^ exponent

/-- Whether two numbers count as one literal: equal in the order of numbers, where
the zeros are one, or both not a number. -/
def same (a b : Float) : Bool := a == b || (a.isNaN && b.isNaN)

end Formula.Number
