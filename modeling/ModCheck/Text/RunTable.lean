/-
  Character classes as tables of runs of code points. All tables are those of Unicode 16.0.
-/

namespace ModCheck.Text

/-- A class of characters, as the lengths of runs of code points: from 0 on, how many are left out
and how many belong to it, by turns. -/
abbrev RunTable := List Nat

/-- Whether `n` lies in a run of the class, where the runs begin at `start`; the search ends at the
first run above it. -/
def RunTable.containsFrom (start : Nat) : RunTable → Nat → Bool
  | out :: within :: rest, n =>
    start + out ≤ n &&
      (n < start + out + within || containsFrom (start + out + within) rest n)
  | _, _ => false

/-- Whether a character belongs to the class. -/
def RunTable.contains (table : RunTable) (c : Char) : Bool :=
  containsFrom 0 table c.toNat

end ModCheck.Text
