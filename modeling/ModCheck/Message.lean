import ModCheck.Message.Code
import ModCheck.Position

/-
  What a check reports: messages about places in a file, issues inside a value that become
  messages, and the corrections they carry.
-/

namespace ModCheck

/-- Replace the text of a span by another text. -/
structure Correction where
  file : String
  span : Span
  replacement : String
deriving DecidableEq, Repr

/-- Put a text in at a place. -/
def Correction.insert (file : String) (p : Position) (text : String) : Correction :=
  ⟨file, .point p, text⟩

/-- Whether the span does not end before it starts. -/
def Correction.isOrdered (c : Correction) : Bool :=
  c.span.start.line < c.span.stop.line ||
    (c.span.start.line == c.span.stop.line && c.span.start.column ≤ c.span.stop.column)

/-- Whether the span is empty. -/
def Correction.isInsertion (c : Correction) : Bool :=
  c.span.start == c.span.stop

/-- Another place that a message speaks of. -/
structure RelatedLine where
  file : String
  line : Nat
deriving DecidableEq, Repr

def RelatedLine.display (r : RelatedLine) : String :=
  r.file ++ ":" ++ toString r.line

/-- A message about a place in a file. -/
structure Message where
  severity : Severity
  code : String
  text : String
  file : String
  line : Nat
  span : Option Span := none
  context : Option String := none
  suggestion : Option String := none
  corrections : List Correction := []
  /-- The formula operator it is about, and where that is documented. -/
  formulaReference : Option String := none
  documentationUrl : Option String := none
  /-- Whether it came from a check across files. -/
  crossFile : Bool := false
  related : List RelatedLine := []
deriving DecidableEq, Repr

/-- A message about a span, on the line where the span starts. -/
def Message.about (severity : Severity) (code : Code) (text file : String) (span : Span) :
    Message :=
  { severity, code := code.text, text, file, line := span.start.line, span := some span }

/-- The one-line form of a message. -/
def Message.display (m : Message) : String :=
  m.file ++ ":" ++ toString m.line ++ ": " ++ m.severity.label ++ "[" ++ m.code ++ "]: " ++ m.text

/-- The column where the span starts. -/
def Message.column? (m : Message) : Option Nat :=
  m.span.map (·.start.column)

/-- A problem inside a value. -/
structure Issue where
  severity : Severity
  code : Code
  text : String
  range : CharRange
  suggestion : Option String := none
  /-- What to write at the range instead. -/
  replacement : Option String := none
  /-- The formula operator it is about. -/
  operator : Option String := none
deriving DecidableEq, Repr

/-- The issue of a part of a value that starts `n` characters in, as an issue of the value. -/
def Issue.shift (issue : Issue) (n : Nat) : Issue :=
  { issue with range := issue.range.shift n }

end ModCheck
