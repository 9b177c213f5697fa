import ModCheck.Decimal.Literal

/-
  JSON values. Objects keep the order and the repetition of their keys, numbers keep whether they
  were written as whole numbers, and a string with half of a surrogate pair is kept as one that
  holds no text.
-/

namespace ModCheck

/-- A number as written. -/
structure JsonNumber where
  negative : Bool
  /-- Whether it is written without a point and an exponent. -/
  isWhole : Bool
  /-- The number without its sign. -/
  size : Decimal
deriving DecidableEq, Repr

inductive Json where
  | null
  | bool (value : Bool)
  | number (value : JsonNumber)
  | string (text : Option String)
  | array (items : List Json)
  | object (fields : List (Option String × Json))
deriving Repr

namespace Json

def ofNat (n : Nat) : Json :=
  .number ⟨false, true, ⟨n, 0⟩⟩

def ofString (s : String) : Json :=
  .string (some s)

/-- An object with the keys given. -/
def ofFields (fields : List (String × Json)) : Json :=
  .object (fields.map fun f => (some f.1, f.2))

end Json

end ModCheck
