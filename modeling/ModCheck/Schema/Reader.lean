import ModCheck.Json.Reader
import ModCheck.Pattern.Parser
import ModCheck.Schema
import ModCheck.Schema.Declaration

/-
  Reading the three schema documents: object types and classes, formula operators, tags.
-/

namespace ModCheck

open Json (Reader Slot)

/-! ## Object types and classes -/

namespace Declarations

def readType : Reader TypeDeclaration :=
  Json.record
    [["category"], ["class"], ["requiresId"], ["supportsClone"], ["parents"], ["listOf"]]
    fun room slots => match slots with
      | [category, className, requiresId, supportsClone, parents, listOf] => do
        some ⟨← category.required Json.text room, ← className.optional Json.text room,
          ← requiresId.orElse false Json.flag room, ← supportsClone.orElse false Json.flag room,
          ← parents.orElse [] (Json.list Json.text) room, ← listOf.optional Json.text room⟩
      | _ => none

def readField : Reader FieldDeclaration :=
  Json.record [["name"], ["type"], ["virtual"], ["pattern"], ["allowsX"]]
    fun room slots => match slots with
      | [name, type, isVirtual, isPattern, allowsX] => do
        some ⟨← name.required Json.text room, ← type.orElse "string" Json.text room,
          ← isVirtual.orElse false Json.flag room, ← isPattern.orElse false Json.flag room,
          ← allowsX.orElse false Json.flag room⟩
      | _ => none

def readClass : Reader ClassDeclaration :=
  Json.record [["extends"], ["fields"]] fun room slots => match slots with
    | [parent, fields] => do
      some ⟨← parent.optional Json.text room, ← fields.orElse [] (Json.list readField) room⟩
    | _ => none

def read : Reader Declarations :=
  Json.record [["objectTypes"], ["classes"], ["typeAliases"], ["enums"]]
    fun room slots => match slots with
      | [types, classes, aliases, enums] => do
        some ⟨← types.orElse [] (Json.map readType) room,
          ← classes.orElse [] (Json.map readClass) room,
          ← aliases.orElse [] (Json.map Json.text) room,
          ← enums.orElse [] (Json.map (Json.list Json.text)) room⟩
      | _ => none

end Declarations

/-- Reads the document of object types and classes; `path` names it in faults. -/
def ObjectSchema.ofText (patterns : PatternLanguage) (path text : String) :
    Except Fault ObjectSchema :=
  match Declarations.read.ofText? text with
  | none => .error (.json path)
  | some d => (d.build patterns).mapError .schema

/-! ## Formula operators -/

namespace Operator

/-- The kind of an argument: a formula if it is marked as one, else by the name of its type. -/
def argumentKind (type : Option String) (isFormula : Bool) : ArgumentKind :=
  if isFormula then .formula
  else match type.map String.toLower with
    | some "formula" => .formula
    | some "number" => .numeric
    | some "integer" => .numeric
    | some "int" => .numeric
    | some "float" => .numeric
    | _ => .atom

def readArgument : Reader ArgumentSpec :=
  Json.record [["name"], ["type"], ["formula"]] fun room slots => match slots with
    | [name, type, isFormula] => do
      some ⟨← name.required Json.text room,
        argumentKind (← type.optional Json.text room) (← isFormula.orElse false Json.flag room)⟩
    | _ => none

/-- The usages of an operator; one without arguments if none is declared. -/
def orPlainUsage : Option (List Usage) → List Usage
  | none => [[]]
  | some [] => [[]]
  | some usages => usages

mutual

/-- An operator with the operators inside it. -/
def read : Reader Operator
  | 0, _ => none
  | room + 1, value =>
    match Json.slots?
        [["name"], ["aliases"], ["category"], ["functionStyle"], ["usages"],
          ["alternateDelimiters"], ["delegatesTo"], ["subOperators"]] value with
    | some [name, aliases, category, style, usages, delimiters, delegate, inner] => do
      some {
        name := ← name.required Json.text room
        aliases := ← aliases.orElse [] (Json.list Json.text) room
        category := ← category.optional Json.text room
        functionStyle := ← style.orElse false Json.flag room
        usages := orPlainUsage
          (← usages.optional (Json.list (Json.list readArgument)) room)
        alternateDelimiters := ← delimiters.orElse [] (Json.list Json.text) room
        delegatesTo := ← delegate.optional Json.text room
        subOperators := ← match inner with
          | .given value => readAll room value
          | _ => some [] }
    | _ => none

/-- A list of operators. -/
def readAll : Reader (List Operator)
  | room + 1, .array items => items.mapM (read room)
  | _, _ => none

end

/-- Whether a formula stands before the last argument. -/
def hasMisplacedFormula (usages : List Usage) : Bool :=
  usages.any fun usage => usage.dropLast.any (·.kind == .formula)

mutual

/-- The first operator that has a formula before its last argument, an operator before those
inside it. -/
def misplaced? : Operator → Option String
  | ⟨name, _, _, _, usages, _, _, inner⟩ =>
    if hasMisplacedFormula usages then some name else firstMisplaced? inner

def firstMisplaced? : List Operator → Option String
  | [] => none
  | op :: ops => (misplaced? op).or (firstMisplaced? ops)

end

end Operator

/-- The address of the documentation and the operators. -/
def FormulaSchema.read : Reader (Option String × List Operator) :=
  Json.record [["documentationUrl"], ["operators"]] fun room slots => match slots with
    | [url, operators] => do
      some (← url.optional Json.text room, ← operators.orElse [] Operator.readAll room)
    | _ => none

/-- Reads the document of formula operators. -/
def FormulaSchema.ofText (path text : String) : Except Fault FormulaSchema :=
  match FormulaSchema.read.ofText? text with
  | none => .error (.json path)
  | some (url, operators) =>
    match Operator.firstMisplaced? operators with
    | some name => .error (.schema (.misplacedFormula name))
    | none => .ok ⟨url, Operator.table operators⟩

/-! ## Tags -/

namespace TagSpec

/-- The parameter of an object with a name and a type; it is a formula if its type says so. -/
def parameterOf? (fields : List (Option String × Json)) : Option TagParameter :=
  match Json.slots? [["name"], ["type"]] (.object fields) with
  | some [name, type] => do
    some ⟨← name.required Json.text 0,
      (← type.optional Json.text 0).any fun t => t.toLower == "formula"⟩
  | _ => none

/-- A parameter is a name, or an object that is kept whole. -/
def readParameter : Reader TagParameter
  | _, .string t => t.map (⟨·, false⟩)
  | room, .object fields => if Json.isSound room (.object fields) then parameterOf? fields else none
  | _, _ => none

def read : Reader TagSpec :=
  Json.record [["name"], ["aliases"], ["requiredArgs"], ["optionalArgs"]]
    fun room slots => match slots with
      | [name, aliases, required, optional] => do
        some ⟨← name.required Json.text room, ← aliases.orElse [] (Json.list Json.text) room,
          ← required.orElse [] (Json.list readParameter) room,
          ← optional.orElse [] (Json.list readParameter) room⟩
      | _ => none

end TagSpec

def RichTextSchema.read : Reader RichTextSchema :=
  Json.record [["tags"], ["commands"]] fun room slots => match slots with
    | [tags, commands] => do
      some ⟨TagSpec.table (← tags.orElse [] (Json.list TagSpec.read) room),
        TagSpec.table (← commands.orElse [] (Json.list TagSpec.read) room)⟩
    | _ => none

/-- Reads the document of tags and commands. -/
def RichTextSchema.ofText (path text : String) : Except Fault RichTextSchema :=
  match RichTextSchema.read.ofText? text with
  | none => .error (.json path)
  | some schema => .ok schema

/-! ## All documents -/

/-- The texts of the schema documents. -/
structure SchemaTexts where
  objects : String
  formulas : String
  richText : String

/-- Reads the three documents in turn; the first fault counts. -/
def Schema.ofTexts (texts : SchemaTexts) : Except Fault Schema := do
  pure ⟨← ObjectSchema.ofText Pattern.language "objects.json" texts.objects,
    ← FormulaSchema.ofText "formulas.json" texts.formulas,
    ← RichTextSchema.ofText "dynamic_text.json" texts.richText⟩

end ModCheck
