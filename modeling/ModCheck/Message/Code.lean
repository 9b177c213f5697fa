/-
  The checks that a message can come from, each with a stable code.
-/

namespace ModCheck

/-- How grave a message is, the mildest first. -/
inductive Severity where
  | info
  | hint
  | warning
  | error
deriving DecidableEq, Repr

def Severity.label : Severity → String
  | .info => "info"
  | .hint => "hint"
  | .warning => "warning"
  | .error => "error"

/-- The severity with a given label. -/
def Severity.ofLabel? : String → Option Severity
  | "info" => some .info
  | "hint" => some .hint
  | "warning" => some .warning
  | "error" => some .error
  | _ => none

/-- Rank from mild to grave. -/
def Severity.rank : Severity → Nat
  | .info => 0
  | .hint => 1
  | .warning => 2
  | .error => 3

/-- The checks. -/
inductive Code where
  | unexpectedToken
  | missingTypeName
  | missingBracket
  | missingEquals
  | missingSemicolon
  | unknownObjectType
  | missingId
  | cloneUnsupported
  | parentOrder
  | unknownProperty
  | duplicateProperty
  | replaceMarker
  | duplicateId
  | invalidBoolean
  | invalidInteger
  | invalidFloat
  | invalidByte
  | invalidVector
  | invalidRectangle
  | invalidEnum
  | formulaSyntax
  | unknownOperator
  | formulaArity
  | argumentType
  | missingBody
  | callingStyle
  | unknownSubOperator
  | alternateDelimiter
  | unknownTag
  | unknownCommand
  | tagArity
  | nestedBrackets
  | zeroArgumentStyle
deriving DecidableEq, Repr

/-- The code under which a check reports: a group, a slash and a name. -/
def Code.text : Code → String
  | .unexpectedToken => "syntax/unexpected-token"
  | .missingTypeName => "syntax/missing-type-name"
  | .missingBracket => "syntax/missing-bracket"
  | .missingEquals => "syntax/missing-equals"
  | .missingSemicolon => "syntax/missing-semicolon"
  | .unknownObjectType => "object/unknown-type"
  | .missingId => "object/missing-id"
  | .cloneUnsupported => "object/clone-unsupported"
  | .parentOrder => "object/parent-order"
  | .unknownProperty => "property/unknown"
  | .duplicateProperty => "property/duplicate"
  | .replaceMarker => "property/replace-marker"
  | .duplicateId => "cross-file/duplicate-id"
  | .invalidBoolean => "type/boolean"
  | .invalidInteger => "type/integer"
  | .invalidFloat => "type/float"
  | .invalidByte => "type/byte"
  | .invalidVector => "type/vector"
  | .invalidRectangle => "type/rectangle"
  | .invalidEnum => "type/enum"
  | .formulaSyntax => "formula/syntax"
  | .unknownOperator => "formula/unknown-operator"
  | .formulaArity => "formula/arity"
  | .argumentType => "formula/argument-type"
  | .missingBody => "formula/missing-body"
  | .callingStyle => "formula/calling-style"
  | .unknownSubOperator => "formula/unknown-sub-operator"
  | .alternateDelimiter => "formula/alternate-delimiter"
  | .unknownTag => "dynamic-text/unknown-tag"
  | .unknownCommand => "dynamic-text/unknown-command"
  | .tagArity => "dynamic-text/arity"
  | .nestedBrackets => "dynamic-text/nested-brackets"
  | .zeroArgumentStyle => "dynamic-text/zero-arg-style"

end ModCheck
