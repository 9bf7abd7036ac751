import Formula.Number.Decimal

/-!
The shortest decimal that reads back as a given number. The decimals of a fixed
precision form a grid, and if any point of it reads back then one of the number's two
neighbours on it does; so the first precision at which a neighbour reads back gives
the shortest decimal.
-/

namespace Formula.Decimal

/-- Moves trailing zeros of the digits into the exponent. -/
def trim (digits : Nat) (exponent : Int) : Decimal :=
  if 0 < digits ∧ digits % 10 = 0 then trim (digits / 10) (exponent + 1) else ⟨digits, exponent⟩
termination_by digits

def digitCount (n : Nat) : Nat := (Nat.toDigits 10 n).length

/-- The place `p` of the leading digit of a positive magnitude: the number is below
`10 ^ p` and not below `10 ^ (p - 1)`. -/
def leadingPlace (magnitude : Nat) : Int :=
  let units := Number.units magnitude
  if Nat.pow 2 1074 ≤ units then digitCount (units / Nat.pow 2 1074)
  else 1 - digitCount ((Nat.pow 2 1074 - 1) / units)

/-- The neighbours of a number on the grid `10 ^ exponent`, the nearer one first. Of
two that are equally near, the upper one is first. -/
def neighbours (magnitude : Nat) (exponent : Int) : List Nat :=
  let (numerator, denominator) := match exponent with
    | .ofNat e => (Number.units magnitude, Nat.pow 2 1074 * Nat.pow 10 e)
    | .negSucc e => (Number.units magnitude * Nat.pow 10 (e + 1), Nat.pow 2 1074)
  let lower := numerator / denominator
  if denominator ≤ 2 * (numerator % denominator) then [lower + 1, lower] else [lower, lower + 1]

def withPrecision? (magnitude : Nat) (precision : Nat) : Option Decimal :=
  let exponent := leadingPlace magnitude - precision
  ((neighbours magnitude exponent).map fun digits => trim digits exponent).find? fun decimal =>
    decimal.magnitude = magnitude

/-- Every finite number is a whole number of units, and a unit has 1074 places. -/
def exact (magnitude : Nat) : Decimal := ⟨Number.units magnitude * Nat.pow 5 1074, -1074⟩

/-- Seventeen digits tell any two numbers apart. -/
def shortest (magnitude : Nat) : Decimal :=
  if magnitude = 0 then ⟨0, 0⟩
  else ((List.range' 1 17).findSome? (withPrecision? magnitude)).getD (exact magnitude)

end Formula.Decimal
