import Formula.Parse.Rpn
import Formula.Parse.Tree
import Formula.Token.Lexeme

/-!
Reading expressions. What the language has no use for is skipped; everything else has
to fit together.
-/

namespace Formula

def defaultDepth : Nat := 512

/-- Reads an expression of at most the given height. -/
def parse (limit : Nat) (input : String) : Except ParseError Expr := do
  let rpn ← Rpn.ofTokens (tokenize input)
  if rpn = [] then throw ⟨[⟨0, input.utf8ByteSize⟩], .emptyExpression⟩
  Expr.ofRpn limit rpn

end Formula
