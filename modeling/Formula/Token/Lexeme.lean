import Formula.Number.Decimal
import Formula.Token.Basic

/-!
Lexemes: the pieces into which any text falls, whether or not the expression language
has a use for them. A piece is as long as it can be, and the pieces of a text put
together are the text.
-/

namespace Formula

inductive LexemeKind where
  | whitespace
  | operator (op : BinaryOp)
  | leftParen
  | rightParen
  | number
  | word
  | symbol
deriving DecidableEq

def LexemeKind.name : LexemeKind → String
  | .whitespace => "Whitespace"
  | .operator op => op.name
  | .leftParen => "LeftParen"
  | .rightParen => "RightParen"
  | .number => "Number"
  | .word => "Word"
  | .symbol => "Symbol"

/-- A piece of text with the characters that stand next to it. -/
structure Lexeme where
  kind : LexemeKind
  span : Span
  text : List Char
  before : Option Char
  after : Option Char

namespace Lexeme

def isSpace (c : Char) : Bool := c == ' ' || c == '\t' || c == '\n' || c == '\r'

def byteLength : List Char → Nat
  | [] => 0
  | c :: text => c.utf8Size + byteLength text

/-- The kind of a character that is a piece by itself. -/
def singleKind : Char → LexemeKind
  | '+' => .operator .add
  | '-' => .operator .sub
  | '*' => .operator .mul
  | '/' => .operator .div
  | '^' => .operator .pow
  | '(' => .leftParen
  | ')' => .rightParen
  | _ => .symbol

/-- The first piece of a text and what follows it. -/
def splitFirst (c : Char) (rest : List Char) : LexemeKind × List Char × List Char :=
  if isSpace c then (.whitespace, c :: rest.takeWhile isSpace, rest.dropWhile isSpace)
  else if c.isDigit then
    let numeral := Number.splitNumeral (c :: rest)
    (.number, numeral.1 ++ numeral.2.1, numeral.2.2)
  else if c.isAlpha then (.word, c :: rest.takeWhile Char.isAlpha, rest.dropWhile Char.isAlpha)
  else (singleKind c, [c], rest)

theorem splitFirst_shorter (c : Char) (rest : List Char) :
    (splitFirst c rest).2.2.length ≤ rest.length := by
  unfold splitFirst
  split
  · exact (List.dropWhile_sublist isSpace).length_le
  · split
    · rename_i digit
      -- The numeral has its first digit, so less is left than the text.
      have hlength := congrArg List.length (Number.splitNumeral_append (c :: rest))
      rw [Number.splitNumeral_fst, List.takeWhile_cons_of_pos digit] at hlength
      simp only [List.cons_append, List.length_cons, List.length_append] at hlength
      simp only
      omega
    · split
      · exact (List.dropWhile_sublist Char.isAlpha).length_le
      · exact Nat.le_refl _

/-- The pieces of the rest of a text, given the character before it and its offset. -/
def scanFrom (before : Option Char) (offset : Nat) : List Char → List Lexeme
  | [] => []
  | c :: rest =>
      let piece := splitFirst c rest
      let stop := offset + byteLength piece.2.1
      ⟨piece.1, ⟨offset, stop⟩, piece.2.1, before, piece.2.2.head?⟩ ::
        scanFrom piece.2.1.getLast? stop piece.2.2
termination_by text => text.length
decreasing_by
  have := splitFirst_shorter c rest
  simp only [List.length_cons]
  omega

def isWordChar (c : Char) : Bool := c.isAlphanum || c == '_'

/-- Whether no word character stands next to the lexeme. -/
def isIsolated (lexeme : Lexeme) : Bool :=
  !lexeme.before.any isWordChar && !lexeme.after.any isWordChar

/-- What the lexeme is in the expression language. A word is the name of a function or
a variable of one letter; one that touches another word character is no variable. -/
def tokenKind? (lexeme : Lexeme) : Option TokenKind :=
  match lexeme.kind with
  | .whitespace | .symbol => none
  | .operator op => some (.binary op)
  | .leftParen => some .leftParen
  | .rightParen => some .rightParen
  | .number => some .number
  | .word =>
      match Func.ofName? lexeme.text with
      | some func => some (.func func)
      | none => if lexeme.text.length = 1 ∧ lexeme.isIsolated then some .letter else none

def token? (lexeme : Lexeme) : Option Token :=
  lexeme.tokenKind?.map fun kind => ⟨lexeme.span, kind, lexeme.text⟩

/-- Whether the language has no use for the lexeme, though it is no space. -/
def isUnrecognized (lexeme : Lexeme) : Bool :=
  lexeme.kind != .whitespace && lexeme.tokenKind?.isNone

end Lexeme

def scan (input : String) : List Lexeme := Lexeme.scanFrom none 0 input.toList

/-- The tokens of a text, in order. What the language has no use for is left out. -/
def tokenize (input : String) : List Token := (scan input).filterMap Lexeme.token?

/-- The regions that `tokenize` leaves out, spaces aside. -/
def unrecognized (input : String) : List Span :=
  ((scan input).filter Lexeme.isUnrecognized).map (·.span)

end Formula
