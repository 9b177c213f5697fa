import ModCheck.Document
import ModCheck.Validation.Findings
import ModCheck.Validation.Value

/-
  Validating mod files: every file is read and checked on its own, then identifiers are compared
  across all files.
-/

namespace ModCheck

/-- The key that copies another object. -/
def Key.copy : String := "clone"

/-! ## Properties -/

/-- The message about a key that is no field. -/
def unknownProperty (options : Options) (o : Object) (c : ObjectClass) (stored : String)
    (p : Property) : Message :=
  let key := Key.base stored
  let span := p.nameSpan.toSpan
  let close := suggest key c.concreteNames options.maxDistance
  let mark := if stored.toList.head? == some '!' then "!" else ""
  { Message.about .warning .unknownProperty
      ("Unknown property '" ++ key ++ "' for [" ++ o.typeName ++ "]") o.file span with
    context := some c.name
    suggestion := didYouMean close
    corrections :=
      ((bestName close).map fun name => Correction.mk o.file span (mark ++ name)).toList }

/-- The message at the second place where a key is written, unless it is a list. -/
def repeatedProperty (o : Object) (field : Field) (stored : String) (p : Property) : List Message :=
  let key := Key.base stored
  if o.writtenBefore stored == 1 && !field.type.isList then
    [.about .warning .duplicateProperty
      ("'" ++ key ++ "' is defined " ++ toString (o.countWritten key)
        ++ " times; the engine keeps every value") o.file p.nameSpan.toSpan]
  else []

/-- The message about a replacement mark on a key that is no list. -/
def uselessMark (o : Object) (field : Field) (stored : String) (p : Property) : List Message :=
  let key := Key.base stored
  let span := p.nameSpan.toSpan
  if stored.toList.head? == some '!' && !field.type.isList then
    [{ Message.about .hint .replaceMarker
        ("'!' only changes list properties; '" ++ key ++ "' is a " ++ field.type.display) o.file
        span with
        corrections := [⟨o.file, span, key⟩] }]
  else []

/-- The messages about a property. -/
def propertyMessages (schema : Schema) (options : Options) (o : Object) (c : ObjectClass)
    (stored : String) (p : Property) : List Message :=
  let key := Key.base stored
  if key == Key.copy then []
  else match c.field? key with
    | none => [unknownProperty options o c stored p]
    | some field =>
      repeatedProperty o field stored p ++ uselessMark o field stored p ++
        valueMessages schema options c.name key p.value field p.valueSpan.start o.file

/-! ## Objects -/

/-- The message about an object whose type is not known. -/
def unknownType (schema : ObjectSchema) (options : Options) (o : Object) : Message :=
  let span := o.typeSpan.toSpan
  let close := suggest o.typeName schema.typeNames options.maxDistance
  { Message.about .error .unknownObjectType ("Unknown object type '" ++ o.typeName ++ "'") o.file
      span with
    suggestion := didYouMean close
    corrections := ((bestName close).map fun name => Correction.mk o.file span name).toList }

def missingId (type : ObjectType) (o : Object) : List Message :=
  if type.requiresId && (o.get? Key.id).isNone then
    [.about .error .missingId ("[" ++ o.typeName ++ "] requires an " ++ Key.id) o.file
      o.typeSpan.toSpan]
  else []

def unsupportedClones (type : ObjectType) (o : Object) : List Message :=
  if type.supportsClone then []
  else
    (o.properties.filter fun entry => Key.base entry.1 == Key.copy).map fun entry =>
      .about .error .cloneUnsupported ("[" ++ o.typeName ++ "] does not support " ++ Key.copy)
        o.file entry.2.nameSpan.toSpan

/-- Whether one of the objects before, the nearest first, is of a type in `parents`, with nothing
but nested objects in between that have parents too. -/
def hasParentBefore (schema : ObjectSchema) (parents : List String) : List Object → Bool
  | [] => false
  | o :: before =>
    if parents.contains o.typeName then true
    else match schema.type? o.typeName with
      | some type =>
        if type.category == .nested && !type.parents.isEmpty then
          hasParentBefore schema parents before
        else false
      | none => false

def misplaced (schema : ObjectSchema) (type : ObjectType) (before : List Object) (o : Object) :
    List Message :=
  if type.parents.isEmpty || hasParentBefore schema type.parents before then []
  else
    [.about .error .parentOrder
      ("[" ++ o.typeName ++ "] must directly follow one of: " ++ ", ".intercalate type.parents)
      o.file o.typeSpan.toSpan]

/-- The messages about an object; `before` holds the objects before it, the nearest first. -/
def objectMessages (schema : Schema) (options : Options) (before : List Object) (o : Object) :
    List Message :=
  match schema.objects.type? o.typeName with
  | none => [unknownType schema.objects options o]
  | some type =>
    missingId type o ++ unsupportedClones type o ++ misplaced schema.objects type before o ++
      match type.className.bind schema.objects.class? with
      | none => []
      | some c =>
        o.properties.flatMap fun entry => propertyMessages schema options o c entry.1 entry.2

/-- The messages about objects that follow those in `before`, the nearest first. -/
def objectsMessages (schema : Schema) (options : Options) (before : List Object) :
    List Object → List Message
  | [] => []
  | o :: after =>
    objectMessages schema options before o ++ objectsMessages schema options (o :: before) after

/-! ## Files -/

/-- A file's text and the label it goes by. -/
structure SourceFile where
  file : String
  source : String
deriving DecidableEq, Repr

/-- A file that has been read, with all messages about it alone. -/
def checkFile (schema : Schema) (options : Options) (f : SourceFile) : Document :=
  let document := Document.parse f.source f.file
  { document with
    messages := document.messages ++ objectsMessages schema options [] document.objects }

/-! ## Identifiers across files -/

/-- An object with its identifier. -/
structure Identified where
  typeName : String
  id : String
  object : Object
deriving DecidableEq, Repr

def identified (objects : List Object) : List Identified :=
  objects.filterMap fun o => o.id?.map fun id => ⟨o.typeName, id, o⟩

/-- The line of an object's identifier. -/
def idLine (o : Object) : RelatedLine :=
  ⟨o.file, ((o.get? Key.id).map (·.nameSpan.line)).getD o.startLine⟩

/-- The message about objects of one type with one identifier, at the second of them. -/
def duplicateMessage? (typeName id : String) (members : List Object) : Option Message :=
  match members with
  | _ :: second :: _ =>
    (second.get? Key.id).map fun p =>
      let related := members.map idLine
      { Message.about .error .duplicateId
          ("Duplicate " ++ Key.id ++ " '" ++ id ++ "' for [" ++ typeName ++ "] at "
            ++ ", ".intercalate (related.map RelatedLine.display)) second.file p.valueSpan with
        crossFile := true
        related }
  | _ => none

/-- The messages about identifiers that occur more than once for a type, in the order in which they
first occur. -/
def repeatedIds (documents : List Document) : List Message :=
  let all := identified (documents.flatMap (·.objects))
  ((all.map fun i => (i.typeName, i.id)).eraseDups).filterMap fun pair =>
    duplicateMessage? pair.1 pair.2
      ((all.filter fun i => (i.typeName, i.id) == pair).map (·.object))

/-- Validates files together. -/
def validate (schema : Schema) (options : Options) (files : List SourceFile) : Findings :=
  let documents := files.map (checkFile schema options)
  .ofMessages (documents.flatMap (·.messages) ++
    if options.checkDuplicateIds then repeatedIds documents else [])

end ModCheck
