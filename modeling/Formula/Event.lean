import Formula.Expr.Notation
import Formula.Expr.Walk
import Formula.Parse
import Formula.Simplify

/-!
The log of reading and simplifying: what happened, in order, for whoever wants to watch.
-/

namespace Formula

inductive EventLevel where
  | debug
  | trace
deriving DecidableEq

/-- The part of the program that an event comes from. -/
inductive EventSource where
  | parser
  | simplifier
deriving DecidableEq

inductive Event where
  | tokenized (tokens : List Token)
  | reordered (rpn : List Token)
  | simplifying (e : Expr)
  | applied (step : Step)
  | simplified (e : Expr) (steps : Nat)

namespace Event

def level : Event → EventLevel
  | .applied _ => .trace
  | _ => .debug

def source : Event → EventSource
  | .tokenized _ | .reordered _ => .parser
  | .simplifying _ | .applied _ | .simplified .. => .simplifier

def lexemes (tokens : List Token) : String :=
  " ".intercalate (tokens.map fun token => .ofList token.lexeme)

/-- The named texts of an event; the first is always its message. -/
def fields : Event → List (String × String)
  | .tokenized tokens => [("message", "tokenized input"), ("tokens", lexemes tokens)]
  | .reordered rpn => [("message", "reordered into RPN"), ("rpn", lexemes rpn)]
  | .simplifying e => [("message", "simplifying " ++ e.text), ("nodes", toString e.nodeCount)]
  | .applied step => [("message", "applied rule"), ("step", step.name)]
  | .simplified e steps =>
      [("message", "simplified to " ++ e.text), ("nodes", toString e.nodeCount),
        ("steps", toString steps)]

/-- The events of reading a text. Nothing is reported after reordering fails. -/
def ofParse (input : String) : List Event :=
  let tokens := tokenize input
  match Rpn.ofTokens tokens with
  | .ok rpn => [.tokenized tokens, .reordered rpn]
  | .error _ => [.tokenized tokens]

/-- The events of a run that started from an expression. -/
def ofRun {allowed : Nat} (e : Expr) (run : Run allowed) : List Event :=
  .simplifying e :: run.steps.map .applied ++
    match run.result with
    | .ok result => [.simplified result run.steps.length]
    | .error _ => []

end Event

end Formula
