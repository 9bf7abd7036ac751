import Formula.Token.Basic
import Formula.Styled

/-!
Why a text is no expression, and how that is explained to the one who wrote it.
-/

namespace Formula

inductive ParseCause where
  | operandUnderflow
  | trailingTokens
  | unknownToken (found : TokenKind)
  | unbalancedParens (opening : Bool)
  | emptyExpression
  | recursionLimitExceeded (limit : Nat)
deriving DecidableEq

namespace ParseCause

def name : ParseCause → String
  | .operandUnderflow => "OperandUnderflow"
  | .trailingTokens => "TrailingTokens"
  | .unknownToken _ => "UnknownToken"
  | .unbalancedParens _ => "UnbalancedParens"
  | .emptyExpression => "EmptyExpression"
  | .recursionLimitExceeded _ => "RecursionLimitExceeded"

/-- The field of a cause that has one, with its name. -/
def field? : ParseCause → Option (String × String)
  | .unknownToken found => some ("found", found.name)
  | .unbalancedParens opening => some ("opening", if opening then "true" else "false")
  | .recursionLimitExceeded limit => some ("limit", toString limit)
  | .operandUnderflow | .trailingTokens | .emptyExpression => none

def message : ParseCause → String
  | .operandUnderflow => "missing operand"
  | .trailingTokens => "expected end of expression"
  | .unknownToken _ => "unexpected token"
  | .unbalancedParens _ => "unclosed parenthesis"
  | .emptyExpression => "missing expression"
  | .recursionLimitExceeded _ => "maximum nesting depth exceeded"

/-- What is said next to the marked region. -/
def label : ParseCause → Styled
  | .operandUnderflow => [⟨.plain, "this operator needs another "⟩, ⟨.accent, "expression"⟩]
  | .trailingTokens =>
      [⟨.plain, "I could not understand the remaining "⟩, ⟨.accent, "expression"⟩,
        ⟨.plain, " here"⟩]
  | .unknownToken _ => [⟨.plain, "this token cannot appear here"⟩]
  | .unbalancedParens _ => [⟨.plain, "this parenthesis is not matched"⟩]
  | .emptyExpression => [⟨.plain, "add an "⟩, ⟨.accent, "expression"⟩, ⟨.plain, " here"⟩]
  | .recursionLimitExceeded _ => [⟨.plain, "this expression is nested too deeply"⟩]

/-- What would mend the text, where something can be said. -/
def help? : ParseCause → Option Styled
  | .trailingTokens =>
      some [⟨.plain, "you might need to add an operator between these expressions"⟩]
  | .unknownToken found => some [⟨.plain, "found " ++ found.name⟩]
  | .unbalancedParens true =>
      some [⟨.plain, "add a closing parenthesis `)` somewhere after this"⟩]
  | .unbalancedParens false =>
      some [⟨.plain, "add an opening parenthesis `(` somewhere before this"⟩]
  | .recursionLimitExceeded limit =>
      some [⟨.plain, "the maximum nesting depth is "⟩, ⟨.accent, toString limit⟩]
  | .operandUnderflow | .emptyExpression => none

end ParseCause

/-- A cause with the regions of the text that show it. -/
structure ParseError where
  spans : List Span
  cause : ParseCause
deriving DecidableEq

def ParseError.at (token : Token) (cause : ParseCause) : ParseError := ⟨[token.span], cause⟩

end Formula
