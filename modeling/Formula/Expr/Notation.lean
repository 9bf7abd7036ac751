import Formula.Expr.Basic
import Formula.Number.Text

/-!
The two written forms of an expression. The ordinary one puts operators between their
operands, with parentheses only where reading back would give another expression. The
functional one spells out every node and rounds literals to two places.
-/

namespace Formula.Expr

/-- What an expression is, as an operand: `none` where it needs no parentheses. -/
def precedence? : Expr → Option Precedence
  | .literal _ | .var _ | .call .. => none
  | .neg _ => some .power
  | .binary op .. => some op.precedence

/-- Whether parentheses go around an operand. A literal below zero always takes them,
because its minus sign would be read as a negation. -/
def needsParens (operand : Expr) (outer : Precedence) (associativity : Associativity)
    (isRight : Bool) : Bool :=
  operand.isNegative ||
    match operand.precedence? with
    | none => false
    | some own =>
        decide (own.rank < outer.rank) ||
          (own == outer &&
            match associativity with
            | .left => isRight
            | .right => !isRight
            | .none => true)

def enclose (parens : Bool) (text : List Char) : List Char :=
  if parens then '(' :: text ++ [')'] else text

def separator (op : BinaryOp) : List Char :=
  match op.precedence with
  | .power => [op.symbol]
  | _ => [' ', op.symbol, ' ']

def chars : Expr → List Char
  | .literal value => Number.chars value
  | .var name => [name]
  | .neg operand => '-' :: enclose (operand.needsParens .power .right true) operand.chars
  | .binary op lhs rhs =>
      enclose (lhs.needsParens op.precedence op.associativity false) lhs.chars ++
        separator op ++
        enclose (rhs.needsParens op.precedence op.associativity true) rhs.chars
  | .call func operand => func.callName.toList ++ enclose true operand.chars

def text (e : Expr) : String := .ofList e.chars

def functionalChars : Expr → List Char
  | .literal value => Number.chars (Number.roundHundredths value)
  | .var name => [name]
  | .neg operand => "Neg".toList ++ enclose true operand.functionalChars
  | .binary op lhs rhs =>
      op.name.toList ++ enclose true (lhs.functionalChars ++ ", ".toList ++ rhs.functionalChars)
  | .call func operand => func.name.toList ++ enclose true operand.functionalChars

def functionalText (e : Expr) : String := .ofList e.functionalChars

end Formula.Expr
