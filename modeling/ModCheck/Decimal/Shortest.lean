import ModCheck.Decimal.Binary64

/-
  Decimal text of a binary floating point number: the fewest digits that read back as the same
  number, the nearest such digits where several are as few, the larger of two equally near.
-/

namespace ModCheck.Binary64

/-- How many digits a number has. -/
def digitCount (n : Nat) : Nat :=
  (Nat.toDigits 10 n).length

/-- A finite number as a fraction: in quarters of its unit, over `den`. -/
structure Exact where
  /-- The number, the least and the greatest that round to it, over `den`. -/
  value : Nat
  low : Nat
  high : Nat
  den : Nat
  /-- Whether the ends round to the number too. -/
  closed : Bool

/-- The number and the interval that rounds to it. Below a power of two the next smaller number is
only half a unit away. -/
def exact (x : Binary64) : Exact :=
  let m := x.parts.1
  let q := x.parts.2 - 2
  let below := if m == Nat.pow 2 52 && -1074 < x.parts.2 then 1 else 2
  let num := if q < 0 then 1 else Nat.pow 2 q.toNat
  let den := if q < 0 then Nat.pow 2 (-q).toNat else 1
  ⟨4 * m * num, (4 * m - below) * num, (4 * m + 2) * num, den, m % 2 == 0⟩

/-- Whether `d * 10 ^ p` rounds to the number. -/
def Exact.holds (e : Exact) (d : Nat) (p : Int) : Bool :=
  let point := if p < 0 then d * e.den else d * e.den * Nat.pow 10 p.toNat
  let unit := if p < 0 then Nat.pow 10 (-p).toNat else 1
  if e.closed then e.low * unit ≤ point && point ≤ e.high * unit
  else e.low * unit < point && point < e.high * unit

/-- The greatest power of ten that is not above the number. -/
def Exact.magnitude (e : Exact) : Int :=
  (digitCount (e.value * Nat.pow 10 400 / e.den) : Int) - 401

/-- The best decimal on the grid of `10 ^ p`, if one rounds to the number. One that reaches the next
power of ten loses its zero. -/
def Exact.onGrid? (e : Exact) (p : Int) : Option Decimal :=
  let num := if p < 0 then e.value * Nat.pow 10 (-p).toNat else e.value
  let den := if p < 0 then e.den else e.den * Nat.pow 10 p.toNat
  let down := num / den
  let nearer := if 2 * (num % den) < den then down else down + 1
  let other := if nearer == down then down + 1 else down
  let decimal (d : Nat) : Decimal := if d % 10 == 0 then ⟨d / 10, p + 1⟩ else ⟨d, p⟩
  if e.holds nearer p then some (decimal nearer)
  else if e.holds other p then some (decimal other)
  else none

/-- Tries grids from coarse to fine; with seventeen digits every number is found. -/
def Exact.search (e : Exact) : Nat → Int → Decimal
  | 0, p => (e.onGrid? p).getD ⟨0, p⟩
  | tries + 1, p => (e.onGrid? p).getD (search e tries (p - 1))

/-- The shortest decimal that reads back as the number; zero for zero. -/
def shortest (x : Binary64) : Decimal :=
  if x.parts.1 == 0 then ⟨0, 0⟩ else x.exact.search 17 x.exact.magnitude

/-! ## Layout -/

/-- Digits with a point among them, at least `places` digits after it. -/
def positional (places : Nat) (d : Decimal) : String :=
  let digits := Nat.toDigits 10 d.coefficient
  let text :=
    if 0 ≤ d.exponent then (digits ++ List.replicate d.exponent.toNat '0', [])
    else
      let after := (-d.exponent).toNat
      let padded := List.replicate (after + 1 - digits.length) '0' ++ digits
      (padded.take (padded.length - after), padded.drop (padded.length - after))
  let fraction := text.2 ++ List.replicate (places - text.2.length) '0'
  String.ofList (if fraction.isEmpty then text.1 else text.1 ++ '.' :: fraction)

/-- One digit, a point and the others, and the power of ten. -/
def scientific (d : Decimal) : String :=
  let digits := Nat.toDigits 10 d.coefficient
  let power : Int := d.exponent + digits.length - 1
  let text := match digits with
    | first :: rest => if rest.isEmpty then [first] else first :: '.' :: rest
    | [] => []
  String.ofList text ++ "e" ++ toString power

/-- Plain text: never with an exponent, and whole numbers without a point. -/
def plainText (x : Binary64) : String :=
  if x.isInfinite then "inf" else positional 0 x.shortest

/-- Text for listings: with a point always, and with an exponent from `10 ^ 16` up and below
`10 ^ -4`. -/
def listingText (x : Binary64) : String :=
  if x.isInfinite then "inf"
  else
    let d := x.shortest
    let power : Int := d.exponent + digitCount d.coefficient - 1
    if d.coefficient != 0 && (16 ≤ power || power < -4) then scientific d else positional 1 d

end ModCheck.Binary64
