/-
  Outlines: nested data written over several lines, four spaces for each level.
-/

namespace ModCheck

inductive Outline where
  | text (text : String)
  /-- A name with named parts. -/
  | fields (name : String) (parts : List (String × Outline))
  /-- A name around one part. -/
  | wrapped (name : String) (part : Outline)
  | items (items : List Outline)
deriving Repr

namespace Outline

def indent (depth : Nat) : String :=
  String.ofList (List.replicate (4 * depth) ' ')

mutual

/-- The text of an outline whose first line stands at the level `depth`. -/
def renderAt (depth : Nat) : Outline → String
  | .text content => content
  | .fields name parts =>
    name ++ " \x7b\n" ++ renderParts (depth + 1) parts ++ indent depth ++ "\x7d"
  | .wrapped name part =>
    name ++ "(\n" ++ indent (depth + 1) ++ renderAt (depth + 1) part ++ ",\n" ++ indent depth ++ ")"
  | .items [] => "[]"
  | .items (item :: others) =>
    "[\n" ++ renderItems (depth + 1) (item :: others) ++ indent depth ++ "]"

def renderParts (depth : Nat) : List (String × Outline) → String
  | [] => ""
  | (name, part) :: parts =>
    indent depth ++ name ++ ": " ++ renderAt depth part ++ ",\n" ++ renderParts depth parts

def renderItems (depth : Nat) : List Outline → String
  | [] => ""
  | item :: others => indent depth ++ renderAt depth item ++ ",\n" ++ renderItems depth others

end

def render (o : Outline) : String :=
  o.renderAt 0

end Outline

end ModCheck
