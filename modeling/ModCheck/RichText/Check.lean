import ModCheck.Formula.Check
import ModCheck.Formula.Parser
import ModCheck.RichText.Segment
import ModCheck.Schema.Tag

/-
  Checking the tags of a rich text: names are known, the number of arguments fits, and arguments
  that are formulas are sound. The command tag takes the name of a command as its first argument.
-/

namespace ModCheck.RichText

/-- What a check depends on. -/
structure Checker where
  operators : NameTable Operator
  schema : RichTextSchema
  /-- The distance up to which names are suggested. -/
  limit : Nat
  /-- Whether tags without arguments have to end in an equals sign. -/
  styleHints : Bool

/-- The tag whose first argument is a command. -/
def commandTagName : String := "command"

/-- An angle bracket inside a tag. -/
def bracketIssue (range : CharRange) : Issue :=
  { severity := .warning, code := .nestedBrackets
    text := "Nested angle brackets are not supported inside tags", range }

def countNoun (n : Nat) : String :=
  if n == 1 then "argument" else "arguments"

/-- The issues of an argument that is a formula. -/
def formulaIssues (s : Checker) (argument : TagArgument) : List Issue :=
  let start := argument.range.start
  match Formula.parse argument.text with
  | .ok formula =>
    (formula.check ⟨s.operators, s.limit, false⟩).map (·.shift start)
  | .error fault =>
    let place := start + min fault.offset argument.text.length
    [{ severity := .error, code := .formulaSyntax
       text := "Invalid formula in tag argument: " ++ fault.message
       range := ⟨place, max (min (place + 1) argument.range.stop) place⟩ }]

/-- The issues of a tag's arguments; `label` names the tag or command they belong to. A last
argument that is empty asks for the default and is no argument too many. -/
def argumentIssues (s : Checker) (label : String) (spec : TagSpec) (tag : Tag)
    (arguments : List TagArgument) : List Issue :=
  let provided := arguments.length
  let counted := if arguments.getLast?.any (·.isEmpty) then provided - 1 else provided
  let required := spec.required.length
  if spec.maxArguments < counted then
    [{ severity := .error, code := .tagArity
       text := "'" ++ label ++ "' takes at most " ++ toString spec.maxArguments ++ " "
         ++ countNoun spec.maxArguments ++ " but got " ++ toString counted
       range := tag.range }]
  else if provided < required then
    [{ severity := .error, code := .tagArity
       text := "'" ++ label ++ "' requires " ++ toString required ++ " " ++ countNoun required
         ++ " but got " ++ toString provided
       range := tag.range }]
  else
    (if s.styleHints && provided == 0 then
      [{ severity := .info, code := .zeroArgumentStyle
         text := "Tags without arguments are written as <" ++ tag.name ++ "=>"
         range := tag.nameRange
         replacement := some (tag.name ++ "=") }]
    else []) ++
      (arguments.zip spec.parameters).flatMap fun (argument, parameter) =>
        if parameter.isFormula && !argument.isEmpty && !argument.text.toList.contains '<' then
          formulaIssues s argument
        else []

/-- The issues of the command tag. -/
def commandIssues (s : Checker) (tag : Tag) : List Issue :=
  match tag.arguments with
  | [] => [missing]
  | command :: rest =>
    if command.isEmpty then [missing]
    else
      let piece := (Text.Piece.mk command.text.toList command.range).trim
      let name := String.ofList piece.text
      match s.schema.commands.findTag? name with
      | some spec => argumentIssues s (tag.name ++ "=" ++ spec.name) spec tag rest
      | none =>
        [.ofUnknown s.limit .unknownCommand ("Unknown command '" ++ name ++ "'") name
          s.schema.commands.names piece.range]
where
  missing : Issue :=
    { severity := .error, code := .tagArity
      text := "Tag '" ++ tag.name ++ "' expects a command name", range := tag.range }

/-- The issues of a tag. -/
def tagIssues (s : Checker) (tag : Tag) : List Issue :=
  if tag.name.toList.contains '<' then [bracketIssue tag.range]
  else
    (tag.arguments.filter (·.text.toList.contains '<')).map (fun a => bracketIssue a.range) ++
      match s.schema.tags.findTag? tag.name with
      | none =>
        [.ofUnknown s.limit .unknownTag
          (if tag.name == "" then "Empty tag" else "Unknown tag '" ++ tag.name ++ "'") tag.name
          s.schema.tags.names tag.nameRange]
      | some spec =>
        if spec.name.toLower == commandTagName then commandIssues s tag
        else argumentIssues s spec.name spec tag tag.arguments

/-- The issues of a rich text, tag by tag. -/
def check (s : Checker) (value : String) : List Issue :=
  (segments value).flatMap fun segment =>
    match segment with
    | .text _ _ => []
    | .tag tag => tagIssues s tag

end ModCheck.RichText
