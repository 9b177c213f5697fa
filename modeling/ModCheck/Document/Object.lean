import ModCheck.Position

/-
  Objects and their properties. A key that is written again in the same object is stored with
  plus signs at its end, so that every property has a key of its own; a key that starts with an
  exclamation mark replaces a list. The key without both is its base key.
-/

namespace ModCheck

/-- The value written for a key, with the places of both. -/
structure Property where
  value : String
  nameSpan : LineSpan
  /-- The value's span; where there is no value, the place after the equals sign. -/
  valueSpan : Span
  /-- Whether a semicolon ended the value. -/
  terminated : Bool
deriving DecidableEq, Repr

/-- An object of a file: its type name and its properties in the order written. -/
structure Object where
  typeName : String
  file : String
  properties : List (String × Property) := []
  startLine : Nat
  endLine : Nat
  typeSpan : LineSpan
  /-- Numbers of the objects before and after it in the file. -/
  previous : Option Nat := none
  next : Option Nat := none
deriving DecidableEq, Repr

/-- An object without properties on the line of its type name. -/
def Object.empty (typeName file : String) (typeSpan : LineSpan) : Object :=
  { typeName, file, startLine := typeSpan.line, endLine := typeSpan.line, typeSpan }

/-- The key that marks an object's identifier. -/
def Key.id : String := "ID"

def Object.keys (o : Object) : List String :=
  o.properties.map (·.1)

/-- The property stored under a key. -/
def Object.get? (o : Object) (key : String) : Option Property :=
  o.properties.lookup key

/-- The value stored under a key. -/
def Object.value? (o : Object) (key : String) : Option String :=
  (o.get? key).map (·.value)

/-- The identifier, when it is not empty. -/
def Object.id? (o : Object) : Option String :=
  (o.value? Key.id).filter (· != "")

/-! ## Stored keys -/

/-- `key` with `n` plus signs. -/
def plusKey (key : String) (n : Nat) : String :=
  key ++ String.ofList (List.replicate n '+')

/-- The first of `key`, `key+`, `key++`, … from `n` signs on that is not among `taken`. As many
tries as there are keys, and one more, are enough. -/
def freshKeyFrom (taken : List String) (key : String) : Nat → Nat → String
  | 0, n => plusKey key n
  | tries + 1, n =>
    if taken.contains (plusKey key n) then freshKeyFrom taken key tries (n + 1) else plusKey key n

/-- The key under which `key` is stored beside the keys `taken`. -/
def freshKey (taken : List String) (key : String) : String :=
  freshKeyFrom taken key taken.length 0

/-- Adds a property at the end. -/
def Object.insert (o : Object) (key : String) (p : Property) : Object :=
  { o with properties := o.properties ++ [(freshKey o.keys key, p)] }

/-- A stored key as characters, without the plus signs at its end and then without one exclamation
mark at its start. -/
def baseChars (key : List Char) : List Char :=
  match (key.reverse.dropWhile (· == '+')).reverse with
  | '!' :: rest => rest
  | chars => chars

def Key.base (key : String) : String :=
  String.ofList (baseChars key.toList)

/-- How many properties before the one stored under `key` have the same base key; all count when
`key` is not stored. -/
def Object.writtenBefore (o : Object) (key : String) : Nat :=
  (o.keys.takeWhile (· != key)).countP (Key.base · == Key.base key)

/-- How many properties have `key` as their base key. -/
def Object.countWritten (o : Object) (key : String) : Nat :=
  o.keys.countP (Key.base · == key)

/-- Numbers the neighbours of each object of a file. -/
def linkNeighbours (objects : List Object) : List Object :=
  objects.mapIdx fun i o =>
    { o with
      previous := if i == 0 then none else some (i - 1)
      next := if i + 1 < objects.length then some (i + 1) else none }

end ModCheck
