import ModCheck.Decimal.Literal

/-
  Numbers in the 64-bit binary floating point format, as bit patterns: not negative, finite or
  infinite. A decimal number becomes the nearest of them, the even one of two equally near.
-/

namespace ModCheck

/-- A bit pattern of the format. -/
structure Binary64 where
  bits : UInt64
deriving DecidableEq, Repr

namespace Binary64

def zero : Binary64 := ⟨0⟩

def infinity : Binary64 := ⟨0x7FF0000000000000⟩

/-- The quotient of two numbers, to the nearest whole number, a half to the even one. -/
def roundQuotient (num den : Nat) : Nat :=
  let whole := num / den
  let twice := 2 * (num % den)
  if twice < den || (twice == den && whole % 2 == 0) then whole else whole + 1

/-- `num / den` in units of `2 ^ q`, as a fraction. -/
def scaled (num den : Nat) (q : Int) : Nat × Nat :=
  if q < 0 then (num * Nat.pow 2 (-q).toNat, den) else (num, den * Nat.pow 2 q.toNat)

/-- The nearest number to a fraction that is not zero. The unit is chosen so that 53 bits are left
before the point, as far as the smallest unit allows. -/
def ofFraction (num den : Nat) : Binary64 :=
  let q₀ : Int := max ((Nat.log2 num : Int) - Nat.log2 den - 53) (-1074)
  let first := scaled num den q₀
  let q := if first.1 / first.2 < Nat.pow 2 53 then q₀ else q₀ + 1
  let fraction := scaled num den q
  let m := roundQuotient fraction.1 fraction.2
  let code := if m < Nat.pow 2 52 then m else (q + 1074).toNat * Nat.pow 2 52 + m
  if infinity.bits.toNat ≤ code then infinity else ⟨UInt64.ofNat code⟩

/-- The nearest number to a decimal. An exponent far outside the range decides alone. -/
def ofDecimal (d : Decimal) : Binary64 :=
  if d.coefficient == 0 then zero
  else if 400 < d.exponent then infinity
  else if d.exponent + Nat.log2 d.coefficient + 1 < -400 then zero
  else if d.exponent < 0 then ofFraction d.coefficient (Nat.pow 10 (-d.exponent).toNat)
  else ofFraction (d.coefficient * Nat.pow 10 d.exponent.toNat) 1

def isInfinite (x : Binary64) : Bool :=
  x == infinity

/-- The whole number `m` and the unit `2 ^ q` with which a finite number is `m * 2 ^ q`. -/
def parts (x : Binary64) : Nat × Int :=
  let field : Nat := x.bits.toNat / Nat.pow 2 52 % Nat.pow 2 11
  let low : Nat := x.bits.toNat % Nat.pow 2 52
  if field == 0 then (low, -1074) else (low + Nat.pow 2 52, Int.ofNat field - 1075)

end Binary64

end ModCheck
