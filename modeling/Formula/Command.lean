import Formula.Expr.Notation
import Formula.Parse
import Formula.Report
import Formula.Simplify

/-!
The command line: one expression, from the arguments or else from standard input, is
read, simplified and printed.
-/

namespace Formula.Command

structure Request where
  regroup : Bool
  words : List String

/-- Every argument but the flag is a part of the expression. -/
def Request.ofArguments (arguments : List String) : Request where
  regroup := arguments.contains "--regroup"
  words := arguments.filter (· ≠ "--regroup")

structure Response where
  exitCode : Nat
  output : String
  errors : String

/-- Standard input could not be read. -/
def Response.unreadable (cause : String) : Response :=
  ⟨1, "", "error: could not read stdin: " ++ cause ++ "\n"⟩

/-- The text to read: the words of the request, or what standard input holds. -/
def Request.input (request : Request) (standardInput : String) : String :=
  match request.words with
  | [] => .ofList (trim standardInput.toList)
  | words => " ".intercalate words

def Request.run (request : Request) (input : String) : Response :=
  match parse defaultDepth input with
  | .error error => ⟨1, "", Report.render "input" input error⟩
  | .ok e =>
      let parsed := "parsed:     " ++ e.functionalText ++ "\n"
      match (simplify { SimplifyOptions.standard with regroup := request.regroup } e).result with
      | .error error => ⟨1, parsed, "error: " ++ error.message ++ "\n"⟩
      | .ok result =>
          ⟨0, parsed ++ "simplified: " ++ result.functionalText ++ "\n" ++
            "            " ++ result.text ++ "\n", ""⟩

end Formula.Command
