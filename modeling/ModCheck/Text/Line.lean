/-
  The lines of a text. A line ends with a line feed, and a carriage return right before it belongs
  to the ending too. After the last ending there is no further line.
-/

namespace ModCheck.Text

def lines : List Char → List (List Char)
  | [] => []
  | '\n' :: cs => [] :: lines cs
  | '\r' :: '\n' :: cs => [] :: lines cs
  | c :: cs =>
    match lines cs with
    | [] => [[c]]
    | line :: rest => (c :: line) :: rest

/-- Fills a text up with spaces on the left. -/
def alignRight (width : Nat) (cs : List Char) : List Char :=
  List.replicate (width - cs.length) ' ' ++ cs

end ModCheck.Text
