import Mathlib
import Formula.Expr.Basic
import Formula.Proofs.Number.Comparison

/-!
Values of expressions in a field. The field is any field, and what literals, functions
and powers mean in it is left open, up to the few laws that the rules rely on. Division
by zero and zero to the power of zero have a value here like anything else, which means
nothing; `Defined` says that an expression has neither in it.
-/

namespace Formula

/-- What literals, functions and powers mean in a field. The laws for literals are about
finite ones, and no law says anything of the value of zero to the power of zero. -/
structure Interpretation (K : Type*) [Field K] where
  number : Float → K
  func : Func → K → K
  power : K → K → K
  number_zero : number 0 = 0
  number_one : number 1 = 1
  number_neg : ∀ v : Float, v.isFinite = true → number (-v) = -number v
  power_one : ∀ u, power u 1 = u
  one_power : ∀ w, power 1 w = 1
  power_zero : ∀ u, u ≠ 0 → power u 0 = 1
  zero_power : ∀ w, w ≠ 0 → power 0 w = 0

def Expr.FiniteLiterals : Expr → Prop
  | .literal value => value.isFinite = true
  | .var _ => True
  | .neg operand | .call _ operand => operand.FiniteLiterals
  | .binary _ lhs rhs => lhs.FiniteLiterals ∧ rhs.FiniteLiterals

namespace Interpretation

variable {K : Type*} [Field K] (I : Interpretation K) (x : Char → K)

def operation : BinaryOp → K → K → K
  | .add, u, w => u + w
  | .sub, u, w => u - w
  | .mul, u, w => u * w
  | .div, u, w => u / w
  | .pow, u, w => I.power u w

def value : Expr → K
  | .literal value => I.number value
  | .var name => x name
  | .neg operand => -value operand
  | .binary op lhs rhs => I.operation op (value lhs) (value rhs)
  | .call func operand => I.func func (value operand)

def Admits : BinaryOp → K → K → Prop
  | .add, _, _ | .sub, _, _ | .mul, _, _ => True
  | .div, _, w => w ≠ 0
  | .pow, u, w => ¬(u = 0 ∧ w = 0)

/-- At this assignment nothing in the expression is divided by zero, and nothing in it
is zero to the power of zero. -/
def Defined : Expr → Prop
  | .literal _ | .var _ => True
  | .neg operand | .call _ operand => Defined operand
  | .binary op lhs rhs =>
      Defined lhs ∧ Defined rhs ∧ Admits op (I.value x lhs) (I.value x rhs)

section Laws

variable (a b : Expr) (v : Float)

@[simp] theorem value_literal : I.value x (.literal v) = I.number v := rfl

@[simp] theorem value_neg : I.value x (.neg a) = -I.value x a := rfl

@[simp] theorem value_add : I.value x (.add a b) = I.value x a + I.value x b := rfl

@[simp] theorem value_sub : I.value x (.sub a b) = I.value x a - I.value x b := rfl

@[simp] theorem value_mul : I.value x (.mul a b) = I.value x a * I.value x b := rfl

@[simp] theorem value_div : I.value x (.div a b) = I.value x a / I.value x b := rfl

@[simp] theorem value_pow : I.value x (.pow a b) = I.power (I.value x a) (I.value x b) := rfl

@[simp] theorem defined_literal : I.Defined x (.literal v) := trivial

@[simp] theorem defined_var (name : Char) : I.Defined x (.var name) := trivial

@[simp] theorem defined_neg : I.Defined x (.neg a) ↔ I.Defined x a := Iff.rfl

@[simp] theorem defined_add :
    I.Defined x (.add a b) ↔ I.Defined x a ∧ I.Defined x b := by
  simp only [Defined, Admits, and_true]

@[simp] theorem defined_sub :
    I.Defined x (.sub a b) ↔ I.Defined x a ∧ I.Defined x b := by
  simp only [Defined, Admits, and_true]

@[simp] theorem defined_mul :
    I.Defined x (.mul a b) ↔ I.Defined x a ∧ I.Defined x b := by
  simp only [Defined, Admits, and_true]

@[simp] theorem defined_div :
    I.Defined x (.div a b) ↔ I.Defined x a ∧ I.Defined x b ∧ I.value x b ≠ 0 := Iff.rfl

@[simp] theorem defined_pow :
    I.Defined x (.pow a b) ↔
      I.Defined x a ∧ I.Defined x b ∧ ¬(I.value x a = 0 ∧ I.value x b = 0) := Iff.rfl

end Laws

/-- Both zeros are zero in the field. -/
theorem number_of_zero {v : Float} (h : (v == 0) = true) : I.number v = 0 := by
  rcases (Number.beq_zero_iff v).mp h with rfl | rfl
  · exact I.number_zero
  · rw [I.number_neg 0 rfl, I.number_zero, neg_zero]

theorem number_of_one {v : Float} (h : (v == 1) = true) : I.number v = 1 := by
  rw [(Number.beq_one_iff v).mp h]
  exact I.number_one

end Interpretation

namespace Number

open Float.Model

/-- The real number that a number stands for; infinities and what is not a number stand
for none, and get zero. -/
noncomputable def toReal (v : Float) : ℝ :=
  match unpacked v with
  | .finite .positive mantissa exponent _ => mantissa * 2 ^ exponent
  | .finite .negative mantissa exponent _ => -(mantissa * 2 ^ exponent)
  | _ => 0

theorem toReal_zero : toReal 0 = 0 := by
  rw [toReal, unpacked_zero]

theorem toReal_one : toReal 1 = 1 := by
  rw [toReal, unpacked_one]
  norm_num

theorem toReal_neg (v : Float) : toReal (-v) = -toReal v := by
  rw [toReal, toReal, unpacked_neg]
  cases unpacked v with
  | finite sign mantissa exponent positive => cases sign <;> simp [UnpackedFloat.neg]
  | _ => simp [UnpackedFloat.neg]

end Number

/-- Real arithmetic, with the powers of real numbers. -/
noncomputable def Interpretation.real : Interpretation ℝ where
  number := Number.toReal
  func
    | .exp => Real.exp
    | .log => Real.log
    | .sin => Real.sin
    | .cos => Real.cos
  power := fun u w => u ^ w
  number_zero := Number.toReal_zero
  number_one := Number.toReal_one
  number_neg := fun v _ => Number.toReal_neg v
  power_one := Real.rpow_one
  one_power := Real.one_rpow
  power_zero := fun u _ => Real.rpow_zero u
  zero_power := fun _ h => Real.zero_rpow h

end Formula
