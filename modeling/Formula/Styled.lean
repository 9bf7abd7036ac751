/-!
Text with colours, for terminals that understand escape sequences.
-/

namespace Formula

inductive Style where
  | plain
  | frame
  | gutter
  | faint
  | accent
  | alarm
  | help
deriving DecidableEq

/-- The graphic rendition that a terminal is asked for. -/
def Style.code? : Style → Option String
  | .plain => none
  | .frame => some "38;5;246"
  | .gutter => some "38;5;240"
  | .faint => some "38;5;249"
  | .accent => some "38;2;52;235;152"
  | .alarm => some "31"
  | .help => some "38;5;115"

structure Fragment where
  style : Style
  text : String

def Fragment.render (fragment : Fragment) : String :=
  match fragment.style.code? with
  | none => fragment.text
  | some code => "\x1b[" ++ code ++ "m" ++ fragment.text ++ "\x1b[0m"

abbrev Styled := List Fragment

namespace Styled

def render (text : Styled) : String := String.join (text.map Fragment.render)

/-- The text without its colours. -/
def plain (text : Styled) : String := String.join (text.map (·.text))

end Styled

end Formula
