import Formula.Blank
import Formula.Parse.Error

/-!
The report of an error: the text in question with the region underlined, and below it
an arrow from the middle of the region to what is to be said about it.
-/

namespace Formula.Report

/-- The character of a row at a column, given the region and its middle. -/
def underline (region : Span) (middle column : Nat) : Fragment :=
  if column = middle then ⟨.accent, "┬"⟩
  else if region.start ≤ column ∧ column < region.stop then ⟨.accent, "─"⟩
  else ⟨.plain, " "⟩

def arrow (middle column : Nat) : Fragment :=
  if column < middle then ⟨.plain, " "⟩
  else if column = middle then ⟨.accent, "╰"⟩
  else ⟨.accent, "─"⟩

def marked (region : Span) (input : String) : Styled :=
  (trimRight input.toList).mapIdx fun column c =>
    ⟨if region.start ≤ column ∧ column < region.stop then .accent else .faint, c.toString⟩

/-- The region that an error is shown at. -/
def region (error : ParseError) : Span :=
  match error.spans with
  | [] => ⟨0, 0⟩
  | span :: more => more.foldl Span.cover span

/-- The lines of a report on a text of one line. Both rows reach two columns past the
region. -/
def styledLines (source input : String) (error : ParseError) : List Styled :=
  let region := region error
  let middle := (region.start + region.stop) / 2
  let columns := List.range (region.stop + 2)
  let gutter : Styled := [⟨.plain, " "⟩, ⟨.gutter, "  │"⟩, ⟨.plain, " "⟩]
  let help : List Styled := match error.cause.help? with
    | none => []
    | some help => [gutter, gutter ++ [⟨.help, "Help"⟩, ⟨.plain, ": "⟩] ++ help]
  [[⟨.alarm, "Error:"⟩, ⟨.plain, " " ++ error.cause.message⟩],
    [⟨.plain, "   "⟩, ⟨.frame, "╭"⟩, ⟨.frame, "─"⟩, ⟨.frame, "["⟩,
      ⟨.plain, source ++ ":1:" ++ toString (region.start + 1)⟩, ⟨.frame, "]"⟩],
    [⟨.plain, "   "⟩, ⟨.frame, "│"⟩],
    [⟨.plain, " "⟩, ⟨.frame, "1 │"⟩, ⟨.plain, " "⟩] ++ marked region input,
    gutter ++ columns.map (underline region middle),
    gutter ++ columns.map (arrow middle) ++ [⟨.plain, " "⟩] ++ error.cause.label] ++
  help ++ [[⟨.frame, "───╯"⟩]]

/-- The report as text; every line ends with a line feed. -/
def render (source input : String) (error : ParseError) : String :=
  String.join ((styledLines source input error).map fun line => line.render ++ "\n")

end Formula.Report
