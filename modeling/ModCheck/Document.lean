import ModCheck.Document.Section
import ModCheck.Message

/-
  Reading a mod file: its objects, and messages about what is malformed in it. Reading never
  fails; a damaged section is reported and the next one is read as if nothing had happened.
-/

namespace ModCheck

/-! ## Values -/

/-- The text of the value tokens that follow a token on line `line`: the line feeds between, the
blanks before each token, and the token itself. Blanks at the end of a line are not kept, so that
every later line starts in column 0. -/
def joinTokensFrom (line : Nat) : List Token → List Char
  | [] => []
  | t :: ts =>
    List.replicate (t.line - line) '\n' ++ t.lead.toList ++ t.text.toList ++
      joinTokensFrom t.line ts

/-- The text of a value. -/
def joinTokens : List Token → List Char
  | [] => []
  | t :: ts => t.text.toList ++ joinTokensFrom t.line ts

/-- From the first token to the last; without tokens, the place after the equals sign. -/
def valueSpan (equals : Token) (value : List Token) : Span :=
  match value.head?, value.getLast? with
  | some first, some last => ⟨first.start, ⟨last.line, last.endColumn⟩⟩
  | _, _ => .point ⟨equals.line, equals.endColumn⟩

/-- Whether an opening angle bracket is followed, somewhere, by a closing one. -/
def hasTag (value : List Char) : Bool :=
  (value.dropWhile (· != '<')).contains '>'

/-! ## Statements -/

/-- The key and property that a statement adds. -/
def Statement.property? : Statement → Option (String × Property)
  | .assignment key equals value ending _ =>
    some (key.text,
      { value := String.ofList (joinTokens value)
        nameSpan := key.lineSpan
        valueSpan := valueSpan equals value
        terminated := ending = .semicolon })
  | _ => none

/-- The last line that counts as part of the object. -/
def Statement.lastLine : Statement → Nat
  | .assignment key equals value _ _ => max key.line (valueSpan equals value).stop.line
  | .bareName key => key.line
  | .stray _ => 0

/-- The messages about a statement. -/
def Statement.messages (file : String) : Statement → List Message
  | .assignment key equals value ending due =>
    let span := valueSpan equals value
    if ending = .loose && due && joinTokens value != [] && !hasTag (joinTokens value) then
      [{ Message.about .error .missingSemicolon
          ("Missing ';' after value of '" ++ key.text ++ "'") file span with
          corrections := [.insert file span.stop ";"] }]
    else []
  | .bareName key =>
    [.about .error .missingEquals ("Expected '=' after property name '" ++ key.text ++ "'") file
      key.span]
  | .stray token =>
    [.about .error .unexpectedToken
      ("Unexpected " ++ token.kind.label ++ " '" ++ token.text ++ "' in object body") file
      token.span]

/-! ## Blocks -/

/-- The object of a block; one without a type name has none. -/
def Block.object? (file : String) (b : Block) : Option Object :=
  match b.heading with
  | .unnamed => none
  | .named name _ =>
    let start : Object :=
      { Object.empty name.text file name.lineSpan with startLine := b.opening.line }
    let properties := b.statements.filterMap Statement.property?
    let filled := properties.foldl (fun o p => o.insert p.1 p.2) start
    some { filled with endLine := (b.statements.map Statement.lastLine).foldl max filled.endLine }

/-- The messages about a heading. -/
def Block.headingMessages (file : String) (b : Block) : List Message :=
  match b.heading with
  | .unnamed =>
    [.about .error .missingTypeName "Expected an object type name after '['" file b.opening.span]
  | .named _ true => []
  | .named name false =>
    [{ Message.about .error .missingBracket
        ("Missing ']' after object type '" ++ name.text ++ "'") file name.span with
        corrections := [.insert file name.span.stop "]"] }]

def Block.messages (file : String) (b : Block) : List Message :=
  b.headingMessages file ++ b.statements.flatMap (Statement.messages file)

/-! ## Files -/

/-- The message about tokens before the first section; only the first of them is reported. -/
def strayMessages (file : String) (tokens : List Token) : List Message :=
  match tokens.find? fun t => t.kind ≠ .newline && t.kind ≠ .comment with
  | none => []
  | some t =>
    [.about .error .unexpectedToken
      ("Unexpected " ++ t.kind.label ++ " '" ++ t.text ++ "' outside object definition") file
      t.span]

/-- A file that has been read. -/
structure Document where
  objects : List Object
  messages : List Message
deriving DecidableEq, Repr

/-- Reads a file; `file` is the label that messages carry. -/
def Document.parse (source file : String) : Document :=
  let parts := splitSections (Token.scan source)
  let blocks := parts.2.map Section.toBlock
  { objects := linkNeighbours (blocks.filterMap (Block.object? file))
    messages := strayMessages file parts.1 ++ blocks.flatMap (Block.messages file) }

end ModCheck
