import ModCheck.Position

/-
  From a place in a text to the character there. A column may be at most the length of its line,
  where carriage returns at the end of a line do not count as part of it.
-/

namespace ModCheck

/-- The number of bytes that a text takes in UTF-8. -/
def byteLength : List Char → Nat
  | [] => 0
  | c :: cs => c.utf8Size + byteLength cs

/-- What follows the characters that lie in the first `n` bytes. -/
def dropBytes (n : Nat) : List Char → List Char
  | [] => []
  | c :: cs => if n == 0 then c :: cs else dropBytes (n - c.utf8Size) cs

/-- What follows the `n`-th line feed. -/
def skipLines : Nat → List Char → Option (List Char)
  | 0, cs => some cs
  | n + 1, cs =>
    match cs.dropWhile (· != '\n') with
    | [] => none
    | _ :: rest => skipLines n rest

/-- The first line of a text, without the carriage returns at its end. -/
def firstLine (cs : List Char) : List Char :=
  ((cs.takeWhile (· != '\n')).reverse.dropWhile (· == '\r')).reverse

/-- How many characters stand before the place `p`. -/
def Position.index? (text : List Char) (p : Position) : Option Nat :=
  if p.line == 0 then none
  else match skipLines (p.line - 1) text with
    | none => none
    | some rest =>
      if p.column ≤ (firstLine rest).length then some (text.length - rest.length + p.column)
      else none

/-- How many bytes stand before the place `p`. -/
def Position.byteOffset? (text : List Char) (p : Position) : Option Nat :=
  (p.index? text).map fun i => byteLength (text.take i)

end ModCheck
