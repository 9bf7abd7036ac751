/-!
How strongly an operation binds its operands, and which neighbour of its own strength
takes an operand first. The reader and the printer of expressions share both.
-/

namespace Formula

/-- From what is evaluated last to what is evaluated first; `none` is for what is no
operation. A function name ranks below every operator because it is applied by a rule
of its own. -/
inductive Precedence where
  | none
  | function
  | term
  | factor
  | power
deriving DecidableEq

def Precedence.rank : Precedence → Nat
  | .none => 0
  | .function => 1
  | .term => 2
  | .factor => 3
  | .power => 4

inductive Associativity where
  | left
  | right
  | none
deriving DecidableEq

end Formula
