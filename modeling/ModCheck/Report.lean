import ModCheck.Message.Json
import ModCheck.Report.Frame
import ModCheck.Validation

/-
  Reports of messages: readable text, or JSON on one line or several.
-/

namespace ModCheck

inductive ReportFormat where
  | text
  | json
  | prettyJson
deriving DecidableEq, Repr

def ReportFormat.ofName? : String → Option ReportFormat
  | "text" => some .text
  | "json" => some .json
  | "json_pretty" => some .prettyJson
  | _ => none

namespace Report

/-- The source of a file; of two with the same name the last counts. -/
def sourceOf? (files : List SourceFile) (name : String) : Option String :=
  (files.reverse.find? (·.file == name)).map (·.source)

/-- The readable forms of messages, a blank line between each two. -/
def messagesText (messages : List Message) (files : List SourceFile) : String :=
  "\n".intercalate (messages.map fun m => messageText m (sourceOf? files m.file))

def messagesJson (messages : List Message) : Json :=
  .array (messages.map (·.toJson))

/-- A message on its own. -/
def render (format : ReportFormat) (m : Message) (source : Option String) : String :=
  match format with
  | .text => messageText m source
  | .json => (messagesJson [m]).toCompact
  | .prettyJson => (messagesJson [m]).toPretty

/-- All messages. -/
def renderList (format : ReportFormat) (messages : List Message) (files : List SourceFile) :
    String :=
  match format with
  | .text => messagesText messages files
  | .json => (messagesJson messages).toCompact
  | .prettyJson => (messagesJson messages).toPretty

end Report

end ModCheck
