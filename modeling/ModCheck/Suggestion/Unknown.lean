import ModCheck.Message
import ModCheck.Suggestion

/-
  Issues about names that are not known: they offer the closest known names, and the closest of
  all as the replacement.
-/

namespace ModCheck

/-- The issue about the name `name` at `range`, when `names` are known. -/
def Issue.ofUnknown (limit : Nat) (code : Code) (text name : String) (names : List String)
    (range : CharRange) : Issue :=
  let close := suggest name names limit
  { severity := .error, code, text, range, suggestion := didYouMean close,
    replacement := bestName close }

end ModCheck
