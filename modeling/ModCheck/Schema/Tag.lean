import ModCheck.Schema.NameTable
import ModCheck.Text.LowerCase

/-
  The tags of rich text, and the commands of the tag that takes one.
-/

namespace ModCheck

/-- An argument of a tag; it may be a formula. -/
structure TagParameter where
  name : String
  isFormula : Bool
deriving DecidableEq, Repr

/-- A tag or a command. -/
structure TagSpec where
  name : String
  aliases : List String
  required : List TagParameter
  optional : List TagParameter
deriving DecidableEq, Repr

namespace TagSpec

/-- The arguments in order, the required ones first. -/
def parameters (tag : TagSpec) : List TagParameter :=
  tag.required ++ tag.optional

/-- The most arguments it takes. -/
def maxArguments (tag : TagSpec) : Nat :=
  tag.parameters.length

def allNames (tag : TagSpec) : List String :=
  tag.name :: tag.aliases

/-- The tags of a list by name; upper and lower case do not matter. -/
def table (tags : List TagSpec) : NameTable TagSpec :=
  .build Text.lowerCase allNames tags

end TagSpec

/-- The tag with a name, whatever its case. -/
def NameTable.findTag? (table : NameTable TagSpec) (name : String) : Option TagSpec :=
  table.find? (Text.lowerCase name)

/-- What is known about rich text. -/
structure RichTextSchema where
  tags : NameTable TagSpec
  commands : NameTable TagSpec

def RichTextSchema.empty : RichTextSchema :=
  ⟨.empty, .empty⟩

end ModCheck
