import Formula.Token.Basic
import Formula.Number.Decimal

/-!
The infix grammar. A sum is a chain of products, a product a chain of factors, and both
group to the left; a factor is negated, or is a base that is raised to a factor, which
groups to the right. A function applies to the base that follows it. Parentheses make
a base of a sum, and leave nothing in the tree. Where the tokens stand in the text
plays no part.
-/

namespace Formula

inductive Phrase where
  | sum
  | product
  | factor
  | base
deriving DecidableEq

/-- `Derives phrase tokens e`: the tokens can be derived from the phrase, with this
tree. A minus sign is the same token in a difference and in a negation. -/
inductive Derives : Phrase → List Token → Expr → Prop
  | sum {tokens : List Token} {e : Expr} (single : Derives .product tokens e) :
      Derives .sum tokens e
  | term {before after : List Token} {token : Token} {a b : Expr} {op : BinaryOp}
      (sign : op = .add ∨ op = .sub) (kind : token.kind = .binary op)
      (lhs : Derives .sum before a) (rhs : Derives .product after b) :
      Derives .sum (before ++ token :: after) (.binary op a b)
  | product {tokens : List Token} {e : Expr} (single : Derives .factor tokens e) :
      Derives .product tokens e
  | scale {before after : List Token} {token : Token} {a b : Expr} {op : BinaryOp}
      (sign : op = .mul ∨ op = .div) (kind : token.kind = .binary op)
      (lhs : Derives .product before a) (rhs : Derives .factor after b) :
      Derives .product (before ++ token :: after) (.binary op a b)
  | factor {tokens : List Token} {e : Expr} (single : Derives .base tokens e) :
      Derives .factor tokens e
  | negation {tokens : List Token} {token : Token} {e : Expr} (kind : token.kind = .binary .sub)
      (operand : Derives .factor tokens e) : Derives .factor (token :: tokens) (.neg e)
  | power {before after : List Token} {token : Token} {a b : Expr}
      (kind : token.kind = .binary .pow) (lhs : Derives .base before a)
      (rhs : Derives .factor after b) : Derives .factor (before ++ token :: after) (.pow a b)
  | number {token : Token} {value : Float} (kind : token.kind = .number)
      (read : Number.read? token.lexeme = some value) : Derives .base [token] (.literal value)
  | letter {token : Token} (kind : token.kind = .letter) :
      Derives .base [token] (.ofLetter (token.lexeme.headD '\x00'))
  | parentheses {tokens : List Token} {opening closing : Token} {e : Expr}
      (left : opening.kind = .leftParen) (right : closing.kind = .rightParen)
      (inner : Derives .sum tokens e) : Derives .base (opening :: (tokens ++ [closing])) e
  | call {tokens : List Token} {token : Token} {e : Expr} {func : Func}
      (kind : token.kind = .func func) (operand : Derives .base tokens e) :
      Derives .base (token :: tokens) (.call func e)

end Formula
