import ModCheck.Suggestion.EditDistance

/-
  Names close to one that is not known.
-/

namespace ModCheck

/-- A known name and its distance from the name looked up. -/
structure Suggestion where
  name : String
  distance : Nat
deriving DecidableEq, Repr

/-- The distance up to which names are suggested when nothing else is asked for. -/
def defaultDistance : Nat := 3

/-- The most names that are suggested. -/
def suggestionLimit : Nat := 3

/-- The known names within `limit` of `target`, the closest first, equally close ones in the order
given, at most `suggestionLimit`. -/
def suggest (target : String) (names : List String) (limit : Nat) : List Suggestion :=
  let close := names.filterMap fun name =>
    let distance := editDistance target name
    if distance ≤ limit then some ⟨name, distance⟩ else none
  (close.mergeSort fun a b => a.distance ≤ b.distance).take suggestionLimit

/-- Quoted names as part of a sentence: `'a', 'b' or 'c'`. -/
def listNames (suggestions : List Suggestion) : Option String :=
  let quoted := suggestions.map fun s => "'" ++ s.name ++ "'"
  match quoted.reverse with
  | [] => none
  | [only] => some only
  | last :: init => some (", ".intercalate init.reverse ++ " or " ++ last)

/-- The question that offers the names. -/
def didYouMean (suggestions : List Suggestion) : Option String :=
  (listNames suggestions).map fun names => "Did you mean " ++ names ++ "?"

/-- The name to write instead: the closest. -/
def bestName (suggestions : List Suggestion) : Option String :=
  suggestions.head?.map (·.name)

end ModCheck
