import ModCheck.FileSystem
import ModCheck.Schema.Reader
import ModCheck.Settings

/-
  Reading the schema from its files.
-/

namespace ModCheck.Schema

variable {m : Type → Type} [Monad m]

/-- Reads one document. -/
def loadDocument {α : Type} (fs : FileSystem m) (ofText : String → String → Except Fault α)
    (path : Path) : m (Except Fault α) := do
  match ← fs.read path with
  | .error cause => return .error (.io path.text cause)
  | .ok text => return ofText path.text text

/-- Reads the three documents in turn; the first fault counts. -/
def load (fs : FileSystem m) (paths : SchemaPaths) : m (Except Fault Schema) := do
  match ← loadDocument fs (ObjectSchema.ofText Pattern.language) paths.objects with
  | .error fault => return .error fault
  | .ok objects =>
    match ← loadDocument fs FormulaSchema.ofText paths.formulas with
    | .error fault => return .error fault
    | .ok formulas =>
      match ← loadDocument fs RichTextSchema.ofText paths.richText with
      | .error fault => return .error fault
      | .ok richText => return .ok ⟨objects, formulas, richText⟩

end ModCheck.Schema
