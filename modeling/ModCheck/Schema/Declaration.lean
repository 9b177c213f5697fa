import ModCheck.Fault
import ModCheck.Pattern.Language
import ModCheck.Schema.Objects

/-
  Object types and classes as they are declared. Building the schema gives each class the fields
  that it inherits and finds the types of fields.
-/

namespace ModCheck

/-- An object type as declared. -/
structure TypeDeclaration where
  category : String
  className : Option String
  requiresId : Bool
  supportsClone : Bool
  parents : List String
  listOf : Option String
deriving DecidableEq, Repr

/-- A field as declared. -/
structure FieldDeclaration where
  name : String
  type : String
  isVirtual : Bool
  isPattern : Bool
  allowsX : Bool
deriving DecidableEq, Repr

/-- A class as declared: the class it extends and its own fields. -/
structure ClassDeclaration where
  parent : Option String
  fields : List FieldDeclaration
deriving DecidableEq, Repr

/-- All declarations by name. -/
structure Declarations where
  types : List (String × TypeDeclaration)
  classes : List (String × ClassDeclaration)
  aliases : List (String × String)
  enums : List (String × List String)
deriving DecidableEq, Repr

/-- The object type with a name. -/
def TypeDeclaration.build (name : String) (t : TypeDeclaration) : Except SchemaFault ObjectType :=
  match Category.ofName? t.category with
  | none => .error (.unknownCategory name t.category)
  | some category =>
    .ok ⟨name, category, t.className, t.requiresId, t.supportsClone, t.parents, t.listOf⟩

/-- The keys of a field that stands for many. -/
def FieldDeclaration.pattern (patterns : PatternLanguage) (className : String)
    (f : FieldDeclaration) : Except SchemaFault (Option (String → Bool)) :=
  if f.isPattern then
    match patterns (anchored f.name) with
    | none => .error (.invalidPattern f.name className)
    | some p => .ok (some p)
  else .ok none

/-- The field of a class. -/
def FieldDeclaration.build (patterns : PatternLanguage) (scope : FieldType.Scope)
    (className : String) (f : FieldDeclaration) : Except SchemaFault Field :=
  match f.pattern patterns className with
  | .error fault => .error fault
  | .ok pattern =>
    match FieldType.resolve? scope f.type with
    | none => .error (.endlessType f.type)
    | some type => .ok ⟨f.name, type, f.isVirtual, pattern, f.allowsX⟩

/-- Inherited fields first, without those that the class declares itself. -/
def inherit (inherited own : List Field) : List Field :=
  inherited.filter (fun f => !own.any (·.name == f.name)) ++ own

namespace Declarations

/-- The classes with other names. -/
def without (classes : List (String × ClassDeclaration)) (name : String) :
    List (String × ClassDeclaration) :=
  classes.filter (·.1 != name)

theorem length_without_lt {classes : List (String × ClassDeclaration)} {name : String}
    {c : ClassDeclaration} (h : classes.lookup name = some c) :
    (without classes name).length < classes.length := by
  unfold without
  induction classes with
  | nil => simp at h
  | cons entry classes ih =>
    by_cases hn : entry.1 = name
    · have : (entry.1 != name) = false := by simp [hn]
      rw [List.filter_cons_of_neg (by simp [this])]
      exact Nat.lt_succ_of_le (List.length_filter_le ..)
    · have hne : (entry.1 != name) = true := by simp [hn]
      have hlookup : classes.lookup name = some c := by
        have : (name == entry.1) = false := by simp [Ne.symm hn]
        rw [List.lookup_cons, this] at h
        exact h
      rw [List.filter_cons_of_pos (by simp [hne])]
      exact Nat.succ_lt_succ (ih hlookup)

/-- The names under which types of fields are found. -/
def scope (d : Declarations) : FieldType.Scope :=
  ⟨d.aliases, d.enums⟩

set_option linter.unusedVariables false in
/-- The fields of a class with those it inherits. The classes in `pending` are those not yet met on
the way up; a class that is declared and was met extends itself. A class that is not declared has
no fields. -/
def fieldsFrom (d : Declarations) (patterns : PatternLanguage)
    (pending : List (String × ClassDeclaration)) (name : String) :
    Except SchemaFault (List Field) :=
  match h : pending.lookup name with
  | none => if (d.classes.lookup name).isSome then .error .cyclicInheritance else .ok []
  | some c => do
    let inherited ← match c.parent with
      | none => pure []
      | some parent => fieldsFrom d patterns (without pending name) parent
    let own ← c.fields.mapM (·.build patterns d.scope name)
    pure (inherit inherited own)
termination_by pending.length
decreasing_by exact length_without_lt h

/-- The object schema. -/
def build (d : Declarations) (patterns : PatternLanguage) : Except SchemaFault ObjectSchema := do
  let types ← d.types.mapM fun (name, t) => t.build name
  let classes ← d.classes.mapM fun (name, _) =>
    return ⟨name, ← d.fieldsFrom patterns d.classes name⟩
  pure ⟨types, classes, d.enums⟩

end Declarations

end ModCheck
