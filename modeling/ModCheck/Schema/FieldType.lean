import ModCheck.Text.Blank

/-
  The types that a field can be declared with. A declared name is looked up among the aliases,
  again and again; then it is a list of another type, one of the known types, or an enumeration.
  Case does not matter for the known types.
-/

namespace ModCheck

inductive FieldType where
  | boolean
  | integer
  | float
  | byte
  | vector2
  | tileCoord
  | vector3
  | rectangle
  | list (element : FieldType)
  | string
  | formula
  | richText
  /-- A member of a named enumeration. -/
  | enumeration (name : String)
  /-- A type that is not known; every value is accepted. -/
  | unknown (name : String)
deriving DecidableEq, Repr

namespace FieldType

def display : FieldType → String
  | .boolean => "boolean"
  | .integer => "integer"
  | .float => "float"
  | .byte => "byte"
  | .vector2 => "Vector2"
  | .tileCoord => "TileCoord"
  | .vector3 => "Vector3"
  | .rectangle => "Rectangle"
  | .list element => "List<" ++ element.display ++ ">"
  | .string => "string"
  | .formula => "Formula"
  | .richText => "DynamicText"
  | .enumeration name => name
  | .unknown name => name

def isList : FieldType → Bool
  | .list _ => true
  | _ => false

/-- Other names of types, and the enumerations with their members. -/
structure Scope where
  aliases : List (String × String)
  enums : List (String × List String)

/-- How many aliases are followed in a row. -/
def maxAliases : Nat := 16

/-- Follows at most `n` aliases; one that leads to itself is not followed. -/
def followAliases (aliases : List (String × String)) : Nat → String → String
  | 0, name => name
  | n + 1, name =>
    match aliases.lookup name with
    | some target => if target == name then name else followAliases aliases n target
    | none => name

/-- The element type's name in the name of a list type. -/
def listElement? (name : List Char) : Option (List Char) :=
  match name with
  | 'L' :: 'i' :: 's' :: 't' :: '<' :: rest =>
    if rest.getLast? == some '>' then some rest.dropLast else none
  | _ => none

/-- The type of a name that is no list. -/
def ofName (enums : List (String × List String)) (name : String) : FieldType :=
  match name.toLower with
  | "boolean" => .boolean
  | "bool" => .boolean
  | "integer" => .integer
  | "int" => .integer
  | "float" => .float
  | "double" => .float
  | "byte" => .byte
  | "vector2" => .vector2
  | "tilecoord" => .tileCoord
  | "vector3" => .vector3
  | "rectangle" => .rectangle
  | "string" => .string
  | "formula" => .formula
  | "dynamictext" => .richText
  | _ => if (enums.lookup name).isSome then .enumeration name else .unknown name

/-- Resolves a declared type through at most `depth` lists inside each other. -/
def resolveWithin (scope : Scope) : Nat → String → Option FieldType
  | 0, _ => none
  | depth + 1, declared =>
    let name :=
      followAliases scope.aliases maxAliases (String.ofList (Text.trim declared.toList))
    match listElement? name.toList with
    | some inner => (resolveWithin scope depth (String.ofList inner)).map .list
    | none => some (ofName scope.enums name)

/-- How many characters the aliases lead to, all together. -/
def aliasLength : List (String × String) → Nat
  | [] => 0
  | (_, target) :: aliases => target.length + aliasLength aliases

/-- A bound on the lists inside each other of a type that ends: every list is cut out of the
declared text or of an alias, and no cut can come up twice unless it comes up forever. -/
def depthBound (scope : Scope) (declared : String) : Nat :=
  declared.length + aliasLength scope.aliases + 2

/-- The type of a declared text; none if aliases expand to lists of themselves without end. -/
def resolve? (scope : Scope) (declared : String) : Option FieldType :=
  resolveWithin scope (depthBound scope declared) declared

end FieldType

end ModCheck
