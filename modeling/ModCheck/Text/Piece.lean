import ModCheck.Position
import ModCheck.Text.Blank

/-
  Parts of a text that know where they stand in it.
-/

namespace ModCheck.Text

/-- A part of a text and its characters' numbers. -/
structure Piece where
  text : List Char
  range : CharRange
deriving DecidableEq, Repr

/-- Cuts a text, whose first character has the number `pos`, at every `separator`. There is always
one piece more than there are separators. -/
def splitPieces (separator : Char) (pos : Nat) : List Char → List Piece
  | [] => [⟨[], ⟨pos, pos⟩⟩]
  | c :: cs =>
    let more := splitPieces separator (pos + 1) cs
    if c == separator then ⟨[], ⟨pos, pos⟩⟩ :: more
    else match more with
      | p :: ps => ⟨c :: p.text, ⟨pos, p.range.stop⟩⟩ :: ps
      | [] => []

/-- The piece without the whitespace around it. -/
def Piece.trim (p : Piece) : Piece :=
  let start := p.range.start + (p.text.takeWhile isBlank).length
  let body := Text.trim p.text
  ⟨body, ⟨start, start + body.length⟩⟩

end ModCheck.Text
