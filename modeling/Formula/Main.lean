import Formula.Command

/-!
The program: arguments and standard input in, text and an exit code out.
-/

open Formula

def main (arguments : List String) : IO UInt32 := do
  let request := Command.Request.ofArguments arguments
  let response ←
    try
      let standardInput ← if request.words.isEmpty then (← IO.getStdin).readToEnd else pure ""
      pure (request.run (request.input standardInput))
    catch error => pure (Command.Response.unreadable (toString error))
  (← IO.getStdout).putStr response.output
  (← IO.getStderr).putStr response.errors
  return response.exitCode.toUInt32
