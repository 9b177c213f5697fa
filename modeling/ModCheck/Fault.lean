import ModCheck.Position

/-
  Why a run cannot go on, as opposed to what is wrong in a mod file.
-/

namespace ModCheck

/-- What is wrong with a schema. -/
inductive SchemaFault where
  | unknownCategory (type category : String)
  | invalidPattern (field className : String)
  | cyclicInheritance
  | misplacedFormula (operator : String)
  /-- A type that expands to lists without end. -/
  | endlessType (declared : String)
deriving DecidableEq, Repr

def SchemaFault.message : SchemaFault → String
  | .unknownCategory type category =>
    "object type '" ++ type ++ "' has unknown category '" ++ category ++ "'"
  | .invalidPattern field className =>
    "invalid pattern for field '" ++ field ++ "' of class '" ++ className ++ "'"
  | .cyclicInheritance => "cyclic class inheritance"
  | .misplacedFormula operator =>
    "operator '" ++ operator ++ "': only the last argument may be a formula"
  | .endlessType declared => "type '" ++ declared ++ "' expands without end"

/-- Why a file cannot be read. -/
inductive IoCause where
  | notFound
  | notADirectory
  | isADirectory
  | invalidUtf8
  | other (text : String)
deriving DecidableEq, Repr

def IoCause.message : IoCause → String
  | .notFound => "No such file or directory (os error 2)"
  | .notADirectory => "Not a directory (os error 20)"
  | .isADirectory => "Is a directory (os error 21)"
  | .invalidUtf8 => "stream did not contain valid UTF-8"
  | .other text => text

/-- What is wrong with the settings. -/
inductive SettingsFault where
  | invalidPath (path : String) (cause : IoCause)
  | malformed (path : String)
  | unsupportedFormat (extension path : String)
  | notFound (path : String)
deriving DecidableEq, Repr

def SettingsFault.message : SettingsFault → String
  | .invalidPath path cause => "Invalid path '" ++ path ++ "': " ++ cause.message
  | .malformed path => "Failed to parse '" ++ path ++ "'"
  | .unsupportedFormat extension path =>
    "Unsupported config format '" ++ extension ++ "' for '" ++ path ++ "'; use .toml or .json"
  | .notFound path => "Config file not found: " ++ path

/-- Why corrections cannot be applied. -/
inductive CorrectionFault where
  | endsEarly (span : Span)
  | outside (place : Position)
deriving DecidableEq, Repr

def CorrectionFault.message : CorrectionFault → String
  | .endsEarly span =>
    "correction " ++ toString span.start.line ++ ":" ++ toString span.start.column ++ "-"
      ++ toString span.stop.line ++ ":" ++ toString span.stop.column ++ " ends before it starts"
  | .outside place =>
    "position " ++ toString place.line ++ ":" ++ toString place.column ++ " is outside the text"

inductive Fault where
  | schema (cause : SchemaFault)
  | settings (cause : SettingsFault)
  | io (path : String) (cause : IoCause)
  | json (path : String)
  | correction (cause : CorrectionFault)
deriving DecidableEq, Repr

def Fault.message : Fault → String
  | .schema cause => "Schema error: " ++ cause.message
  | .settings cause => "Configuration error: " ++ cause.message
  | .io path cause => "IO error for path '" ++ path ++ "': " ++ cause.message
  | .json path => "Invalid JSON in '" ++ path ++ "'"
  | .correction cause => "Autofix error: " ++ cause.message

/-- Whether other files can still be worked on. -/
def Fault.isRecoverable : Fault → Bool
  | .io _ _ => true
  | .correction _ => true
  | _ => false

end ModCheck
