/-
  Places in a file and stretches of it. Lines count from 1 and columns from 0, in characters.
  A place inside a value counts both from 0; `Position.shift` carries it to the file.
-/

namespace ModCheck

/-- A line and a column. -/
structure Position where
  line : Nat
  column : Nat
deriving DecidableEq, Repr

/-- The place after the character `c`; a line feed moves to the start of the next line. -/
def Position.next (p : Position) (c : Char) : Position :=
  if c == '\n' then ⟨p.line + 1, 0⟩ else ⟨p.line, p.column + 1⟩

/-- The place after the text `cs`. -/
def Position.after (p : Position) (cs : List Char) : Position :=
  cs.foldl Position.next p

/-- The place of the `i`-th character inside a text, both numbers from 0; past the end, the end. -/
def Position.within (text : List Char) (i : Nat) : Position :=
  Position.after ⟨0, 0⟩ (text.take i)

/-- Carries a place inside a text to the file, when the text starts at `origin`. The column of the
origin counts on the first line only. -/
def Position.shift (origin inside : Position) : Position :=
  ⟨origin.line + inside.line,
   if inside.line == 0 then origin.column + inside.column else inside.column⟩

/-- A stretch of one line, the end column exclusive. -/
structure LineSpan where
  line : Nat
  startColumn : Nat
  endColumn : Nat
deriving DecidableEq, Repr

/-- A stretch of a file from `start` up to `stop`. -/
structure Span where
  start : Position
  stop : Position
deriving DecidableEq, Repr

/-- The empty stretch at a place. -/
def Span.point (p : Position) : Span :=
  ⟨p, p⟩

/-- Whether the stretch ends on a later line than it starts. -/
def Span.isMultiline (s : Span) : Bool :=
  s.start.line < s.stop.line

/-- A stretch of one line as a stretch of the file. -/
def LineSpan.toSpan (s : LineSpan) : Span :=
  ⟨⟨s.line, s.startColumn⟩, ⟨s.line, s.endColumn⟩⟩

/-- Characters `start` up to `stop` of a text, by number. -/
structure CharRange where
  start : Nat
  stop : Nat
deriving DecidableEq, Repr

/-- The range moved `n` characters on. -/
def CharRange.shift (r : CharRange) (n : Nat) : CharRange :=
  ⟨r.start + n, r.stop + n⟩

/-- From the start of one range to the end of another. -/
def CharRange.through (a b : CharRange) : CharRange :=
  ⟨a.start, b.stop⟩

/-- Where characters of `text` lie in the file when the text starts at `origin`. -/
def CharRange.toSpan (r : CharRange) (text : List Char) (origin : Position) : Span :=
  ⟨origin.shift (Position.within text r.start),
   origin.shift (Position.within text (max r.stop r.start))⟩

end ModCheck
