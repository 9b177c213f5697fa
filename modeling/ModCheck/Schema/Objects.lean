import ModCheck.Schema.FieldType

/-
  Object types and the classes that describe their fields.
-/

namespace ModCheck

/-- How objects of a type are used. -/
inductive Category where
  | definition
  | placed
  | nested
  | special
deriving DecidableEq, Repr

def Category.ofName? : String → Option Category
  | "definition" => some .definition
  | "instance" => some .placed
  | "nested" => some .nested
  | "special" => some .special
  | _ => none

/-- A field of a class. -/
structure Field where
  name : String
  type : FieldType
  /-- A key that is accepted with any value. -/
  isVirtual : Bool
  /-- The keys that the field stands for, if these are many. -/
  pattern : Option (String → Bool)
  /-- Whether formulas may use the placeholder. -/
  allowsX : Bool

/-- The written pattern of a field that stands for many keys: all of the key has to match. -/
def anchored (name : String) : String :=
  "^(?:" ++ name ++ ")$"

/-- A class with its own fields and those it inherits. -/
structure ObjectClass where
  name : String
  fields : List Field

/-- The field for a key: one with that name, or else one whose pattern matches. -/
def ObjectClass.field? (c : ObjectClass) (key : String) : Option Field :=
  (c.fields.find? fun f => f.pattern.isNone && f.name == key).or
    (c.fields.find? fun f => f.pattern.any (· key))

/-- The names of fields that are no patterns. -/
def ObjectClass.concreteNames (c : ObjectClass) : List String :=
  (c.fields.filter (·.pattern.isNone)).map (·.name)

/-- A type of objects. -/
structure ObjectType where
  name : String
  category : Category
  className : Option String
  requiresId : Bool
  supportsClone : Bool
  /-- The types that an object has to follow directly. -/
  parents : List String
  /-- The class of the elements, for types that are lists. -/
  listOf : Option String
deriving DecidableEq, Repr

/-- Object types, classes and enumerations, in the order declared. -/
structure ObjectSchema where
  types : List ObjectType
  classes : List ObjectClass
  enums : List (String × List String)

namespace ObjectSchema

def empty : ObjectSchema :=
  ⟨[], [], []⟩

def type? (s : ObjectSchema) (name : String) : Option ObjectType :=
  s.types.find? (·.name == name)

def typeNames (s : ObjectSchema) : List String :=
  s.types.map (·.name)

def class? (s : ObjectSchema) (name : String) : Option ObjectClass :=
  s.classes.find? (·.name == name)

/-- The class of an object type, when both are declared. -/
def classOfType? (s : ObjectSchema) (typeName : String) : Option ObjectClass :=
  ((s.type? typeName).bind (·.className)).bind s.class?

/-- The members of an enumeration. -/
def members? (s : ObjectSchema) (name : String) : Option (List String) :=
  s.enums.lookup name

end ObjectSchema

end ModCheck
