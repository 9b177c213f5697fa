/-
  Decimal numbers as they are written: digits, a point, an exponent.
-/

namespace ModCheck

/-- The number `coefficient * 10 ^ exponent`. -/
structure Decimal where
  coefficient : Nat
  exponent : Int
deriving DecidableEq, Repr

namespace Decimal

/-- Splits a text after its first digits. -/
def splitDigits (cs : List Char) : List Char × List Char :=
  (cs.takeWhile Char.isDigit, cs.dropWhile Char.isDigit)

/-- The number that digits stand for, after the number `n`. -/
def digitsFrom (n : Nat) (digits : List Char) : Nat :=
  digits.foldl (fun n d => 10 * n + (d.toNat - '0'.toNat)) n

/-- The number of an exponent part: nothing, or a mark, a sign and digits. -/
def exponentOf? : List Char → Option Int
  | [] => some 0
  | mark :: cs =>
    if mark == 'e' || mark == 'E' then
      let digits : List Char := match cs with
        | '+' :: ds => ds
        | '-' :: ds => ds
        | ds => ds
      if digits.isEmpty || !digits.all Char.isDigit then none
      else
        let size : Int := digitsFrom 0 digits
        some (if cs.head? == some '-' then -size else size)
    else none

/-- Reads an unsigned decimal number: digits around an optional point, at least one of them, and an
optional exponent. -/
def parse? (cs : List Char) : Option Decimal :=
  let whole := splitDigits cs
  let fraction : List Char × List Char :=
    match whole.2 with
    | '.' :: rest => splitDigits rest
    | rest => ([], rest)
  if whole.1.isEmpty && fraction.1.isEmpty then none
  else (exponentOf? fraction.2).map fun e =>
    ⟨digitsFrom (digitsFrom 0 whole.1) fraction.1, e - fraction.1.length⟩

end Decimal

end ModCheck
