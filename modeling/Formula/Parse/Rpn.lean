import Formula.Parse.Error

/-!
Reverse Polish notation. Tokens in the usual order go through a stack on which
operations wait until their operands are complete; parentheses only ever wait or end
a wait, so none of them comes out.
-/

namespace Formula

/-- Whether an operation that waits on the stack goes out before the incoming operator
is put there. A function always does: it applies to the operand it stands before. -/
def Token.yieldsTo (top incoming : Token) : Bool :=
  top.kind.isFunction ||
    decide (incoming.precedence.rank < top.precedence.rank) ||
    (top.precedence == incoming.precedence && top.associativity == .left)

namespace Rpn

/-- Whether a minus sign after the given token is a negation. -/
def isUnaryPosition : Option TokenKind → Bool
  | none => true
  | some kind => kind == .leftParen || kind.isOperation

/-- The stack is listed from its top. -/
structure State where
  output : Array Token
  stack : List Token
  last : Option TokenKind

def State.start : State := ⟨#[], [], none⟩

/-- The token as it counts after the given one. -/
def resolve (last : Option TokenKind) (token : Token) : Token :=
  if token.kind = .binary .sub ∧ isUnaryPosition last then token.reclassify .neg else token

def isOpening (token : Token) : Bool := token.kind == .leftParen

/-- Takes a token that has been resolved. -/
def State.place (state : State) (token : Token) : Except ParseError State :=
  let last := some token.kind
  match token.kind with
  | .number | .letter => .ok ⟨state.output.push token, state.stack, last⟩
  | .func _ | .leftParen => .ok ⟨state.output, token :: state.stack, last⟩
  | .rightParen =>
      match state.stack.dropWhile (!isOpening ·) with
      | [] => .error (.at token (.unbalancedParens false))
      | _ :: below =>
          .ok ⟨state.output ++ state.stack.takeWhile (!isOpening ·), below, last⟩
  | .binary _ | .neg =>
      .ok ⟨state.output ++ state.stack.takeWhile (·.yieldsTo token),
        token :: state.stack.dropWhile (·.yieldsTo token), last⟩

def State.feed (state : State) (token : Token) : Except ParseError State :=
  state.place (resolve state.last token)

/-- Lets out what still waits. -/
def State.finish (state : State) : Except ParseError (List Token) :=
  match state.stack.find? isOpening with
  | some opening => .error (.at opening (.unbalancedParens true))
  | none => .ok (state.output ++ state.stack).toList

/-- Reorders tokens so that every operation follows its operands. -/
def ofTokens (tokens : List Token) : Except ParseError (List Token) := do
  (← tokens.foldlM State.feed State.start).finish

end Rpn

end Formula
