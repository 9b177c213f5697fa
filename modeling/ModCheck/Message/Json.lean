import ModCheck.Json.Printer
import ModCheck.Json.Reader
import ModCheck.Message

/-
  Messages as JSON. What a message does not have is left out.
-/

namespace ModCheck

open Json (Reader Slot)

/-! ## Writing -/

def Span.toJson (s : Span) : Json :=
  .ofFields [("start_line", .ofNat s.start.line), ("start_column", .ofNat s.start.column),
    ("end_line", .ofNat s.stop.line), ("end_column", .ofNat s.stop.column)]

def Correction.toJson (c : Correction) : Json :=
  .ofFields [("file", .ofString c.file),
    ("startLine", .ofNat c.span.start.line), ("startColumn", .ofNat c.span.start.column),
    ("endLine", .ofNat c.span.stop.line), ("endColumn", .ofNat c.span.stop.column),
    ("replacement", .ofString c.replacement)]

def RelatedLine.toJson (r : RelatedLine) : Json :=
  .ofFields [("file", .ofString r.file), ("line", .ofNat r.line)]

/-- A field that is left out when there is no value. -/
def optionalField (key : String) (value : Option Json) : List (String × Json) :=
  value.toList.map (key, ·)

/-- A field that is left out when its list is empty. -/
def listField (key : String) (items : List Json) : List (String × Json) :=
  if items.isEmpty then [] else [(key, .array items)]

def Message.toJson (m : Message) : Json :=
  .ofFields <|
    [("severity", .ofString m.severity.label), ("code", .ofString m.code),
      ("message", .ofString m.text), ("file", .ofString m.file), ("line", .ofNat m.line)]
    ++ optionalField "span" (m.span.map (·.toJson))
    ++ optionalField "context" (m.context.map .ofString)
    ++ optionalField "suggestion" (m.suggestion.map .ofString)
    ++ listField "corrections" (m.corrections.map (·.toJson))
    ++ optionalField "formulaReference" (m.formulaReference.map .ofString)
    ++ optionalField "documentationUrl" (m.documentationUrl.map .ofString)
    ++ [("crossFile", .bool m.crossFile)]
    ++ listField "related" (m.related.map (·.toJson))

/-! ## Reading -/

/-- A severity is its label, or an object with the label as its only key and `null` under it. -/
def Severity.read : Reader Severity
  | _, .string t => t.bind Severity.ofLabel?
  | _ + 1, .object [(label, .null)] => label.bind Severity.ofLabel?
  | _, _ => none

/-- Line and column of the start and of the end. -/
def Span.ofSlots (startLine startColumn endLine endColumn : Slot) (room : Nat) : Option Span := do
  some ⟨⟨← startLine.required Json.natural room, ← startColumn.required Json.natural room⟩,
    ⟨← endLine.required Json.natural room, ← endColumn.required Json.natural room⟩⟩

def Span.read : Reader Span :=
  Json.record [["start_line"], ["start_column"], ["end_line"], ["end_column"]]
    fun room slots => match slots with
      | [startLine, startColumn, endLine, endColumn] =>
        Span.ofSlots startLine startColumn endLine endColumn room
      | _ => none

def Correction.read : Reader Correction :=
  Json.record
    [["file"], ["startLine"], ["startColumn"], ["endLine"], ["endColumn"], ["replacement"]]
    fun room slots => match slots with
      | [file, startLine, startColumn, endLine, endColumn, replacement] => do
        some ⟨← file.required Json.text room,
          ← Span.ofSlots startLine startColumn endLine endColumn room,
          ← replacement.required Json.text room⟩
      | _ => none

def RelatedLine.read : Reader RelatedLine :=
  Json.record [["file"], ["line"]] fun room slots => match slots with
    | [file, line] => do
      some ⟨← file.required Json.text room, ← line.required Json.natural room⟩
    | _ => none

def Message.read : Reader Message :=
  Json.record
    [["severity"], ["code"], ["message"], ["file"], ["line"], ["span"], ["context"],
      ["suggestion"], ["corrections"], ["formulaReference"], ["documentationUrl"], ["crossFile"],
      ["related"]]
    fun room slots => match slots with
      | [severity, code, text, file, line, span, context, suggestion, corrections, reference, url,
          crossFile, related] => do
        some {
          severity := ← severity.required Severity.read room
          code := ← code.required Json.text room
          text := ← text.required Json.text room
          file := ← file.required Json.text room
          line := ← line.required Json.natural room
          span := ← span.optional Span.read room
          context := ← context.optional Json.text room
          suggestion := ← suggestion.optional Json.text room
          corrections := ← corrections.orElse [] (Json.list Correction.read) room
          formulaReference := ← reference.optional Json.text room
          documentationUrl := ← url.optional Json.text room
          crossFile := ← crossFile.orElse false Json.flag room
          related := ← related.orElse [] (Json.list RelatedLine.read) room }
      | _ => none

end ModCheck
