import ModCheck.Message.Json
import ModCheck.Path
import ModCheck.Validation.Options

/-
  Settings: where the schema is, what is checked, and which files are looked at.
-/

namespace ModCheck

open Json (Reader)

/-- Where the schema documents are. -/
structure SchemaPaths where
  objects : Path
  formulas : Path
  richText : Path
deriving DecidableEq, Repr

/-- Which files of a directory are checked. -/
structure FileSelection where
  /-- Extensions without the point; upper and lower case do not matter. -/
  extensions : List String
  /-- Patterns of paths that are left out. -/
  exclude : List String
deriving DecidableEq, Repr

structure Settings where
  schema : SchemaPaths
  options : Options
  files : FileSelection
deriving DecidableEq, Repr

/-- The schema documents in a directory. -/
def SchemaPaths.inDirectory (directory : Path) : SchemaPaths :=
  ⟨directory.child "objects.json", directory.child "formulas.json",
    directory.child "dynamic_text.json"⟩

/-- Paths below a directory. -/
def SchemaPaths.under (base : Path) (paths : SchemaPaths) : SchemaPaths :=
  ⟨base.join paths.objects, base.join paths.formulas, base.join paths.richText⟩

/-- Whether the extension of a path is among those selected. -/
def FileSelection.hasExtension (selection : FileSelection) (p : Path) : Bool :=
  p.extension?.any fun e => selection.extensions.any (·.toLower == e.toLower)

namespace Settings

def default : Settings where
  schema := .inDirectory ⟨"schema"⟩
  options := {}
  files := ⟨["txt"], []⟩

/-! ## As JSON -/

def readPath : Reader Path :=
  fun room value => (Json.text room value).map (⟨·⟩)

def readSchema : Reader SchemaPaths :=
  Json.record [["objects"], ["formulas"], ["dynamicText", "dynamic_text"]]
    fun room slots => match slots with
      | [objects, formulas, richText] => do
        some ⟨← objects.orElse default.schema.objects readPath room,
          ← formulas.orElse default.schema.formulas readPath room,
          ← richText.orElse default.schema.richText readPath room⟩
      | _ => none

def readOptions : Reader Options :=
  Json.record
    [["checkDuplicateIds", "check_duplicate_ids"], ["styleHints", "style_hints"],
      ["maxSuggestionDistance", "max_suggestion_distance"],
      ["documentationUrl", "documentation_url"]]
    fun room slots => match slots with
      | [duplicates, hints, distance, url] => do
        some ⟨← duplicates.orElse default.options.checkDuplicateIds Json.flag room,
          ← hints.orElse default.options.styleHints Json.flag room,
          ← distance.orElse default.options.maxDistance Json.natural room,
          ← url.orElse default.options.documentationUrl (Json.nullable Json.text) room⟩
      | _ => none

def readFiles : Reader FileSelection :=
  Json.record [["extensions"], ["exclude"]] fun room slots => match slots with
    | [extensions, exclude] => do
      some ⟨← extensions.orElse default.files.extensions (Json.list Json.text) room,
        ← exclude.orElse default.files.exclude (Json.list Json.text) room⟩
    | _ => none

/-- What is left out has its default. -/
def read : Reader Settings :=
  Json.record [["schema"], ["validation"], ["files"]] fun room slots => match slots with
    | [schema, options, files] => do
      some ⟨← schema.orElse default.schema readSchema room,
        ← options.orElse default.options readOptions room,
        ← files.orElse default.files readFiles room⟩
    | _ => none

def toJson (s : Settings) : Json :=
  .ofFields [
    ("schema", .ofFields [("objects", .ofString s.schema.objects.text),
      ("formulas", .ofString s.schema.formulas.text),
      ("dynamicText", .ofString s.schema.richText.text)]),
    ("validation", .ofFields (
      [("checkDuplicateIds", .bool s.options.checkDuplicateIds),
        ("styleHints", .bool s.options.styleHints),
        ("maxSuggestionDistance", .ofNat s.options.maxDistance)]
      ++ optionalField "documentationUrl" (s.options.documentationUrl.map .ofString))),
    ("files", .ofFields [("extensions", .array (s.files.extensions.map .ofString)),
      ("exclude", .array (s.files.exclude.map .ofString))])]

end Settings

end ModCheck
