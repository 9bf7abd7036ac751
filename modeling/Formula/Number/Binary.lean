/-!
The binary layout of a number, in natural numbers. A layout is a sign bit over a
magnitude; the magnitudes from zero to infinity are ordered as the numbers they
stand for, so rounding an exact quotient is one division and one comparison. Powers
are written `Nat.pow`, which does not depend on the algebra that is imported.
-/

namespace Formula.Number

def isSigned (value : Float) : Bool := decide (Nat.pow 2 63 ≤ value.toBits.toNat)

def magnitude (value : Float) : Nat := value.toBits.toNat % Nat.pow 2 63

def infinityMagnitude : Nat := 2047 * Nat.pow 2 52

def ofMagnitude (signed : Bool) (magnitude : Nat) : Float :=
  .ofBits (.ofNat (if signed then Nat.pow 2 63 + magnitude else magnitude))

def nan : Float := 0 / 0

/-- A finite magnitude, counted in the smallest positive number `2 ^ (-1074)`. -/
def units (magnitude : Nat) : Nat :=
  if magnitude < Nat.pow 2 52 then magnitude
  else (Nat.pow 2 52 + magnitude % Nat.pow 2 52) * Nat.pow 2 (magnitude / Nat.pow 2 52 - 1)

/-- A quotient as a whole number; a half goes to the even neighbour. -/
def roundEven (numerator denominator : Nat) : Nat :=
  let whole := numerator / denominator
  let rest := numerator % denominator
  if denominator < 2 * rest ∨ (denominator = 2 * rest ∧ whole % 2 = 1) then whole + 1 else whole

/-- The magnitude nearest to a quotient. Scaling by `2 ^ shift` leaves a significand
of at most 53 bits; one that rounds up to 54 bits carries into the exponent field,
where it is the next magnitude. -/
def nearest (numerator denominator : Nat) : Nat :=
  let scaled := numerator * Nat.pow 2 1074
  let shift := (scaled / denominator).log2 - 52
  min (shift * Nat.pow 2 52 + roundEven scaled (denominator * Nat.pow 2 shift)) infinityMagnitude

/-- The nearest whole number, a half going away from zero. The sign of a number that
rounds to zero stays. -/
def roundHalfAway (value : Float) : Float :=
  if infinityMagnitude ≤ magnitude value then value
  else ofMagnitude (isSigned value)
    (nearest ((units (magnitude value) + Nat.pow 2 1073) / Nat.pow 2 1074) 1)

end Formula.Number
