import ModCheck.Suggestion

/-
  What a validation run can be told.
-/

namespace ModCheck

structure Options where
  /-- Report identifiers that occur twice for a type. -/
  checkDuplicateIds : Bool := true
  /-- Report matters of style. -/
  styleHints : Bool := true
  /-- The distance up to which names are suggested. -/
  maxDistance : Nat := defaultDistance
  /-- Where operators are documented, instead of the schema's own address. -/
  documentationUrl : Option String := none
deriving DecidableEq, Repr

end ModCheck
