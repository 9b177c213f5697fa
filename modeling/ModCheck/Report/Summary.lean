import ModCheck.Report

/-
  What a check of files prints: the messages and a summary, a JSON document, or annotations for a
  build server.
-/

namespace ModCheck

/-- The counts of a check. -/
structure Summary where
  filesChecked : Nat
  errors : Nat
  warnings : Nat
  hints : Nat
  info : Nat
  fixesApplied : Nat
  /-- Whether fixes were only worked out. -/
  dryRun : Bool
deriving DecidableEq, Repr

namespace Summary

def total (s : Summary) : Nat :=
  s.errors + s.warnings + s.hints + s.info

/-- The styles of the summary on a terminal. -/
inductive Style where
  | bold
  | red
  | green
  | yellow
  | blue
  | cyan
deriving DecidableEq, Repr

def Style.code : Style → String
  | .bold => "1"
  | .red => "31"
  | .green => "32"
  | .yellow => "33"
  | .blue => "34"
  | .cyan => "36"

/-- A text in a style. -/
def paint (coloured : Bool) (style : Style) (text : String) : String :=
  if coloured then "\x1b[" ++ style.code ++ "m" ++ text ++ "\x1b[0m" else text

/-- A line with a count, if there is something to count. -/
def countLine (coloured : Bool) (style : Style) (label : String) (n : Nat) : String :=
  if n == 0 then "" else label ++ ": " ++ paint coloured style (toString n) ++ "\n"

def text (s : Summary) (coloured : Bool) : String :=
  paint coloured .bold "Summary:" ++ "\n"
    ++ "  Files checked: " ++ toString s.filesChecked ++ "\n"
    ++ (if s.total == 0 then "  " ++ paint coloured .green "No issues found" ++ "\n"
      else "  Issues found:\n"
        ++ countLine coloured .red "    Errors" s.errors
        ++ countLine coloured .yellow "    Warnings" s.warnings
        ++ countLine coloured .cyan "    Hints" s.hints
        ++ countLine coloured .blue "    Info" s.info)
    ++ countLine coloured .green
      (if s.dryRun then "  Fixes that would be applied" else "  Fixes applied") s.fixesApplied

def toJson (s : Summary) : Json :=
  .ofFields [("errors", .ofNat s.errors), ("warnings", .ofNat s.warnings),
    ("hints", .ofNat s.hints), ("info", .ofNat s.info), ("total", .ofNat s.total),
    ("fixes_applied", .ofNat s.fixesApplied), ("dry_run", .bool s.dryRun)]

end Summary

namespace Report

/-- The level of an annotation. -/
def annotationLevel : Severity → String
  | .error => "error"
  | .warning => "warning"
  | .hint => "notice"
  | .info => "notice"

/-- The annotation of a message; its columns start at one. -/
def annotate (m : Message) : String :=
  "::" ++ annotationLevel m.severity ++ " file=" ++ m.file ++ ",line=" ++ toString m.line
    ++ (match m.span with
      | none => ""
      | some span =>
        ",col=" ++ toString (span.start.column + 1)
          ++ (if span.isMultiline then ",endLine=" ++ toString span.stop.line
            else ",endColumn=" ++ toString (span.stop.column + 1)))
    ++ "::" ++ m.text ++ " (" ++ m.code ++ ")"

/-- The messages, if any, and the summary. -/
def checkText (messages : List Message) (files : List SourceFile) (s : Summary) (coloured : Bool) :
    String :=
  (if messages.isEmpty then "" else messagesText messages files ++ "\n") ++ s.text coloured

/-- The messages and the summary in one JSON document. -/
def checkJson (messages : List Message) (s : Summary) : Json :=
  .ofFields [("files_checked", .ofNat s.filesChecked), ("issues", messagesJson messages),
    ("summary", s.toJson)]

/-- One annotation a line. -/
def checkAnnotations (messages : List Message) : String :=
  String.join (messages.map fun m => annotate m ++ "\n")

end Report

end ModCheck
