import Formula.Expr.Basic

/-!
Tokens of the expression language. How strongly a token binds follows from its kind
alone, so a token of another kind binds as that kind does.
-/

namespace Formula

/-- A region of the input, in bytes of its UTF-8 form. -/
structure Span where
  start : Nat
  stop : Nat
deriving DecidableEq

/-- The smallest region that holds both. -/
def Span.cover (a b : Span) : Span := ⟨min a.start b.start, max a.stop b.stop⟩

/-- Text only ever gives `binary .sub` for a minus sign; `neg` comes from reordering. -/
inductive TokenKind where
  | number
  | letter
  | binary (op : BinaryOp)
  | neg
  | func (func : Func)
  | leftParen
  | rightParen
deriving DecidableEq

namespace TokenKind

def name : TokenKind → String
  | .number => "Number"
  | .letter => "Variable"
  | .binary op => op.name
  | .neg => "Neg"
  | .func f => f.name
  | .leftParen => "LeftParen"
  | .rightParen => "RightParen"

def precedence : TokenKind → Precedence
  | .number | .letter | .leftParen | .rightParen => .none
  | .binary op => op.precedence
  | .neg => .power
  | .func _ => .function

def associativity : TokenKind → Associativity
  | .number | .letter | .leftParen | .rightParen => .none
  | .binary op => op.associativity
  | .neg | .func _ => .right

def isFunction : TokenKind → Bool
  | .func _ => true
  | _ => false

def isBinary : TokenKind → Bool
  | .binary _ => true
  | _ => false

def isOperator (kind : TokenKind) : Bool := kind.isBinary || kind == .neg

def isOperation (kind : TokenKind) : Bool := kind.isOperator || kind.isFunction

end TokenKind

structure Token where
  span : Span
  kind : TokenKind
  lexeme : List Char
deriving DecidableEq

namespace Token

def precedence (token : Token) : Precedence := token.kind.precedence

def associativity (token : Token) : Associativity := token.kind.associativity

def reclassify (token : Token) (kind : TokenKind) : Token := { token with kind }

def text (token : Token) : String := token.kind.name ++ "('" ++ .ofList token.lexeme ++ "')"

end Token

end Formula
