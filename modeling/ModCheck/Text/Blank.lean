import ModCheck.Text.RunTable

/-
  Whitespace: the property White_Space of Unicode 16.0.
-/

namespace ModCheck.Text

/-- Code points with the property White_Space. -/
def whiteSpace : RunTable :=
  [9, 5, 18, 1, 100, 1, 26, 1, 5599, 1, 2431, 11, 29, 2, 5, 1, 47, 1, 4000, 1]

/-- Spaces, tabs and line breaks of every kind. -/
def isBlank (c : Char) : Bool :=
  whiteSpace.contains c

/-- A text without the whitespace at its start. -/
def trimStart (cs : List Char) : List Char :=
  cs.dropWhile isBlank

/-- A text without the whitespace at its end. -/
def trimEnd (cs : List Char) : List Char :=
  (cs.reverse.dropWhile isBlank).reverse

/-- A text without the whitespace around it. -/
def trim (cs : List Char) : List Char :=
  trimEnd (trimStart cs)

end ModCheck.Text
