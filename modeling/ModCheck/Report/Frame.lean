import ModCheck.Message
import ModCheck.Text.Line
import ModCheck.Text.Quoted

/-
  The readable form of a message: a heading, the lines around its place with carets under its
  span, notes, and a preview of its corrections.
-/

namespace ModCheck.Report

open Text (alignRight lines quoted)

/-- How many lines are shown before and after the line of a message. -/
def contextLines : Nat := 2

def heading (m : Message) : String :=
  m.severity.label ++ "[" ++ m.code ++ "]: " ++ m.text ++ "\n"

/-- The column of the first caret and the number of carets. A span over several lines is marked up
to the end of the line. -/
def carets (m : Message) (lineLength : Nat) : Nat × Nat :=
  match m.span with
  | none => (0, 1)
  | some span =>
    let stop := if span.isMultiline then lineLength else span.stop.column
    (span.start.column, max (stop - span.start.column) 1)

/-- A line of the file, behind its number; the line of the message is marked and followed by a line
of carets. -/
def frameLine (m : Message) (gutter : Nat) (number : Nat) (content : List Char) : String :=
  let text := String.ofList (alignRight gutter (Nat.toDigits 10 number)) ++ " │ "
    ++ String.ofList content ++ "\n"
  if number == m.line then
    let (column, count) := carets m content.length
    "> " ++ text ++ "  " ++ String.ofList (List.replicate gutter ' ') ++ " │ "
      ++ String.ofList (List.replicate column ' ' ++ List.replicate count '^') ++ "\n"
  else "  " ++ text

/-- The lines around the place of a message, if the file has its line. -/
def frame? (m : Message) (source : String) : Option String :=
  let all := lines source.toList
  if m.line == 0 then none
  else match all[m.line - 1]? with
    | none => none
    | some content =>
      let first := max (m.line - contextLines) 1
      let last := min (m.line + contextLines) all.length
      let gutter := (Nat.toDigits 10 last).length
      let shown := (all.take last).drop (first - 1)
      some ("  ┌─[" ++ m.file ++ ":" ++ toString m.line ++ ":"
        ++ toString (carets m content.length).1 ++ "]\n"
        ++ String.join (shown.mapIdx fun i line => frameLine m gutter (first + i) line))

def note (label text : String) : String :=
  "  = " ++ label ++ ": " ++ text ++ "\n"

/-- A line after a correction inside it. -/
def corrected (line : List Char) (c : Correction) : List Char :=
  let start := min c.span.start.column line.length
  let stop := min (max c.span.stop.column start) line.length
  line.take start ++ c.replacement.toList ++ line.drop stop

/-- A correction of one line before and after, a correction of several lines in words. -/
def preview (source : String) (c : Correction) : String :=
  match (lines source.toList)[c.span.start.line - 1]? with
  | none => ""
  | some line =>
    if c.span.stop.line != c.span.start.line then
      "  i fix: replace lines " ++ toString c.span.start.line ++ "-" ++ toString c.span.stop.line
        ++ " with " ++ quoted c.replacement ++ "\n"
    else
      let number := String.ofList (alignRight 4 (Nat.toDigits 10 c.span.start.line))
      "  i fix:\n    " ++ number ++ " │ - " ++ String.ofList line ++ "\n    "
        ++ number ++ " │ + " ++ String.ofList (corrected line c) ++ "\n"

/-- The readable form of a message, with lines of the file if its source is at hand. -/
def messageText (m : Message) (source : Option String) : String :=
  heading m
    ++ ((source.bind (frame? m)).getD ("  → " ++ m.file ++ ":" ++ toString m.line ++ "\n"))
    ++ String.join (m.context.toList.map (note "context"))
    ++ String.join (m.suggestion.toList.map (note "help"))
    ++ String.join (m.related.map fun r => note "see" r.display)
    ++ String.join (m.documentationUrl.toList.map (note "docs"))
    ++ String.join (source.toList.flatMap fun s => m.corrections.map (preview s))

end ModCheck.Report
