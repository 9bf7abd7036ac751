import Formula.Number.Power
import Formula.Precedence

/-!
Expressions over numbers and single-letter variables. Two equalities live side by
side: `=`, which tells every literal from every other, and `Expr.same`, for which the
two zeros are one number.
-/

namespace Formula

inductive BinaryOp where
  | add
  | sub
  | mul
  | div
  | pow
deriving DecidableEq

namespace BinaryOp

def apply : BinaryOp → Float → Float → Float
  | .add, a, b => a + b
  | .sub, a, b => a - b
  | .mul, a, b => a * b
  | .div, a, b => a / b
  | .pow, a, b => Number.power a b

def name : BinaryOp → String
  | .add => "Add"
  | .sub => "Sub"
  | .mul => "Mul"
  | .div => "Div"
  | .pow => "Pow"

def symbol : BinaryOp → Char
  | .add => '+'
  | .sub => '-'
  | .mul => '*'
  | .div => '/'
  | .pow => '^'

def precedence : BinaryOp → Precedence
  | .add | .sub => .term
  | .mul | .div => .factor
  | .pow => .power

def associativity : BinaryOp → Associativity
  | .add | .sub | .mul | .div => .left
  | .pow => .right

end BinaryOp

inductive Func where
  | exp
  | log
  | sin
  | cos
deriving DecidableEq

namespace Func

def apply : Func → Float → Float
  | .exp => Float.exp
  | .log => Float.log
  | .sin => Float.sin
  | .cos => Float.cos

def name : Func → String
  | .exp => "Exp"
  | .log => "Log"
  | .sin => "Sin"
  | .cos => "Cos"

def callName : Func → String
  | .exp => "exp"
  | .log => "log"
  | .sin => "sin"
  | .cos => "cos"

/-- The function of a name, in any case. -/
def ofName? (word : List Char) : Option Func :=
  [Func.exp, .log, .sin, .cos].find? fun func =>
    word.map Char.toLower = func.callName.toList

end Func

inductive Expr where
  | literal (value : Float)
  | var (name : Char)
  | neg (operand : Expr)
  | binary (op : BinaryOp) (lhs rhs : Expr)
  | call (func : Func) (operand : Expr)
deriving DecidableEq

namespace Expr

@[match_pattern] abbrev add (lhs rhs : Expr) : Expr := .binary .add lhs rhs
@[match_pattern] abbrev sub (lhs rhs : Expr) : Expr := .binary .sub lhs rhs
@[match_pattern] abbrev mul (lhs rhs : Expr) : Expr := .binary .mul lhs rhs
@[match_pattern] abbrev div (lhs rhs : Expr) : Expr := .binary .div lhs rhs
@[match_pattern] abbrev pow (lhs rhs : Expr) : Expr := .binary .pow lhs rhs

/-- The variable of a letter; a capital letter names the same variable as the small
one. -/
def ofLetter (letter : Char) : Expr := .var letter.toLower

def number? : Expr → Option Float
  | .literal value => some value
  | _ => none

def isLiteral (e : Expr) : Bool := e.number?.isSome

def isVariable : Expr → Bool
  | .var _ => true
  | _ => false

/-- Whether the expression is the given literal, in the order of numbers: either zero
is zero, and nothing is equal to what is not a number. -/
def isNumber (e : Expr) (value : Float) : Bool := e.number?.any (· == value)

def isZero (e : Expr) : Bool := e.isNumber 0

def isOne (e : Expr) : Bool := e.isNumber 1

/-- Whether the expression is a literal below zero. Negative zero is not. -/
def isNegative (e : Expr) : Bool := e.number?.any (· < 0)

def binary? : Expr → Option (BinaryOp × Expr × Expr)
  | .binary op lhs rhs => some (op, lhs, rhs)
  | _ => none

def call? : Expr → Option (Func × Expr)
  | .call func operand => some (func, operand)
  | _ => none

def children : Expr → List Expr
  | .literal _ | .var _ => []
  | .neg operand | .call _ operand => [operand]
  | .binary _ lhs rhs => [lhs, rhs]

/-- Equality node by node, with `Number.same` on literals. -/
def same : Expr → Expr → Bool
  | .literal a, .literal b => Number.same a b
  | .var a, .var b => a == b
  | .neg a, .neg b => a.same b
  | .binary op a b, .binary op' a' b' => op == op' && a.same a' && b.same b'
  | .call f a, .call g b => f == g && a.same b
  | _, _ => false

end Expr

end Formula
