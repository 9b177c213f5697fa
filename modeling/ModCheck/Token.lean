import ModCheck.Position.Address

/-
  The tokens of a mod file.
-/

namespace ModCheck

/-- The kinds of token. A `value` is text that is neither a name nor a sign. -/
inductive TokenKind where
  | leftBracket
  | rightBracket
  | equals
  | semicolon
  | identifier
  | value
  | comment
  | newline
  | endOfFile
deriving DecidableEq, Repr

/-- How messages name a kind of token. -/
def TokenKind.label : TokenKind → String
  | .leftBracket => "'['"
  | .rightBracket => "']'"
  | .equals => "'='"
  | .semicolon => "';'"
  | .identifier => "identifier"
  | .value => "value"
  | .comment => "comment"
  | .newline => "newline"
  | .endOfFile => "end of file"

/-- A token, with the blanks that stand between it and the token before. -/
structure Token where
  kind : TokenKind
  lead : String
  text : String
  start : Position
  /-- Bytes before the token. -/
  offset : Nat
deriving DecidableEq, Repr

def Token.line (t : Token) : Nat :=
  t.start.line

/-- The column after the last character. -/
def Token.endColumn (t : Token) : Nat :=
  t.start.column + t.text.length

/-- Bytes up to the end of the token. -/
def Token.endOffset (t : Token) : Nat :=
  t.offset + byteLength t.text.toList

def Token.lineSpan (t : Token) : LineSpan :=
  ⟨t.start.line, t.start.column, t.endColumn⟩

def Token.span (t : Token) : Span :=
  t.lineSpan.toSpan

end ModCheck
