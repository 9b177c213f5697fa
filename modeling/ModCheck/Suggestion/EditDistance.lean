import ModCheck.Text.LowerCase

/-
  Edit distance: how many characters have to be put in, taken out or exchanged to turn one text
  into another, in lower case. The distances from a first text's beginnings to all beginnings of
  a second form a row; each character of the first text gives the next row.
-/

namespace ModCheck

/-- The rest of the row after the character `a`, with the entry to the left, the entry above that
one, and the row above. -/
def nextEntries (a : Char) : (left corner : Nat) → List Char → List Nat → List Nat
  | left, corner, b :: bs, above :: row =>
    let here := min (min (above + 1) (left + 1)) (corner + if a == b then 0 else 1)
    here :: nextEntries a here above bs row
  | _, _, _, _ => []

/-- The row after the character `a`. -/
def nextRow (a : Char) (bs : List Char) : List Nat → List Nat
  | [] => []
  | first :: row => (first + 1) :: nextEntries a (first + 1) first bs row

/-- The row of distances from `as` to the beginnings of `bs`. -/
def distanceRow (as bs : List Char) : List Nat :=
  as.foldl (fun row a => nextRow a bs row) (List.range (bs.length + 1))

/-- The edit distance of two texts in lower case. -/
def editDistance (a b : String) : Nat :=
  (distanceRow (Text.lowerChars a.toList) (Text.lowerChars b.toList)).getLastD 0

end ModCheck
