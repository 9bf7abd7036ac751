import Formula.Parse.Error
import Formula.Number.Decimal

/-!
Expressions from reverse Polish notation. Each operand on the stack carries the region
it was built from, to point at in errors, and its height, which is held to a limit as
it grows.
-/

namespace Formula

structure Operand where
  expr : Expr
  span : Span
  height : Nat

namespace Operand

def leaf (token : Token) (expr : Expr) : Operand := ⟨expr, token.span, 1⟩

def unary (token : Token) (build : Expr → Expr) (operand : Operand) : Operand where
  expr := build operand.expr
  span := token.span.cover operand.span
  height := operand.height + 1

def binary (token : Token) (op : BinaryOp) (lhs rhs : Operand) : Operand where
  expr := .binary op lhs.expr rhs.expr
  span := (token.span.cover lhs.span).cover rhs.span
  height := max lhs.height rhs.height + 1

/-- Puts an operand on the stack unless it is higher than the limit. -/
def pushWithin (limit : Nat) (token : Token) (operand : Operand) (stack : List Operand) :
    Except ParseError (List Operand) :=
  if limit < operand.height then .error (.at token (.recursionLimitExceeded limit))
  else .ok (operand :: stack)

/-- Takes the next token. The operand on top is the right one of an operator. -/
def reduce (limit : Nat) (stack : List Operand) (token : Token) :
    Except ParseError (List Operand) :=
  match token.kind, stack with
  | .number, _ =>
      match Number.read? token.lexeme with
      | some value => pushWithin limit token (leaf token (.literal value)) stack
      | none => .error (.at token (.unknownToken .number))
  | .letter, _ => pushWithin limit token (leaf token (.ofLetter (token.lexeme.headD '\x00'))) stack
  | .neg, operand :: rest => pushWithin limit token (unary token .neg operand) rest
  | .func func, operand :: rest => pushWithin limit token (unary token (.call func) operand) rest
  | .binary op, rhs :: lhs :: rest => pushWithin limit token (binary token op lhs rhs) rest
  | .neg, _ | .func _, _ | .binary _, _ => .error (.at token .operandUnderflow)
  | .leftParen, _ => .error (.at token (.unknownToken .leftParen))
  | .rightParen, _ => .error (.at token (.unknownToken .rightParen))

/-- The expression that is left, if it is the only one. What stands above the first is
too much. -/
def result (stack : List Operand) : Except ParseError Expr :=
  match stack with
  | [] => .error ⟨[], .emptyExpression⟩
  | [operand] => .ok operand.expr
  | extra :: rest =>
      let span := rest.dropLast.foldl (fun span operand => span.cover operand.span) extra.span
      .error ⟨[span], .trailingTokens⟩

end Operand

/-- Builds the expression that tokens in reverse Polish notation stand for, of at most
the given height. -/
def Expr.ofRpn (limit : Nat) (rpn : List Token) : Except ParseError Expr := do
  Operand.result (← rpn.foldlM (Operand.reduce limit) [])

end Formula
