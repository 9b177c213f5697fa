import ModCheck.Schema.Objects
import ModCheck.Schema.Operator
import ModCheck.Schema.Tag

/-
  All that is known about mod files.
-/

namespace ModCheck

structure Schema where
  objects : ObjectSchema
  formulas : FormulaSchema
  richText : RichTextSchema

def Schema.empty : Schema :=
  ⟨.empty, .empty, .empty⟩

end ModCheck
