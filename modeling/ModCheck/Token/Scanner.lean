import ModCheck.Text.Alphabetic
import ModCheck.Text.Blank
import ModCheck.Text.Numeric
import ModCheck.Token

/-
  Cutting a mod file into tokens. Scanning knows two modes: after an equals sign everything up to
  a semicolon, a bracket or the end of the line is one value, except that blanks followed by
  another `name =` end it. First the characters are cut into lexemes, blanks and the text after
  them, which needs no places; then the places are counted. No input is refused.
-/

namespace ModCheck

open Text (isAlphabetic isBlank isNumeric)

/-- What the scanner expects next: anything, or the value of a property. -/
inductive ScanMode where
  | normal
  | inValue
deriving DecidableEq, Repr

/-- A token's text and the blanks before it. -/
structure Lexeme where
  gap : List Char
  kind : TokenKind
  text : List Char
deriving DecidableEq, Repr

/-! ## Character classes -/

/-- The first character of a name; an exclamation mark asks to replace a list. -/
def Token.isWordStart (c : Char) : Bool :=
  isAlphabetic c || c == '_' || c == '!'

/-- The later characters of a name. -/
def Token.isWordChar (c : Char) : Bool :=
  isAlphabetic c || isNumeric c || c == '_' || c == '.'

/-- Whitespace that cannot be part of a line break. -/
def isLineBlank (c : Char) : Bool :=
  isBlank c && c != '\n' && c != '\r'

/-- Characters that end a bare word. -/
def isDelimiter (c : Char) : Bool :=
  isBlank c || c == '[' || c == ']' || c == '=' || c == ';'

/-- Whether a text starts with a name, blanks and an equals sign. -/
def startsProperty : List Char → Bool
  | [] => false
  | c :: cs =>
    Token.isWordStart c &&
      ((cs.dropWhile Token.isWordChar).dropWhile isLineBlank).head? == some '='

/-! ## Pieces of text -/

/-- Whether a line break starts with `c`, when `cs` follows. -/
def isLineEnd (c : Char) (cs : List Char) : Bool :=
  c == '\n' || (c == '\r' && cs.head? == some '\n')

/-- Whether `c` is a blank between tokens, when `cs` follows: a carriage return counts unless it
starts a line break. -/
def isGap (c : Char) (cs : List Char) : Bool :=
  isLineBlank c || (c == '\r' && cs.head? != some '\n')

/-- Splits a text after its first blanks. -/
def splitGap : List Char → List Char × List Char
  | [] => ([], [])
  | c :: cs =>
    if isGap c cs then
      let more := splitGap cs
      (c :: more.1, more.2)
    else ([], c :: cs)

/-- Splits a text at the end of its first line. -/
def splitLine : List Char → List Char × List Char
  | [] => ([], [])
  | c :: cs =>
    if isLineEnd c cs then ([], c :: cs)
    else
      let more := splitLine cs
      (c :: more.1, more.2)

/-- Splits a text where a bare word ends: at a delimiter or two hyphens. -/
def splitWord : List Char → List Char × List Char
  | [] => ([], [])
  | c :: cs =>
    if isDelimiter c || (c == '-' && cs.head? == some '-') then ([], c :: cs)
    else
      let more := splitWord cs
      (c :: more.1, more.2)

/-- Splits a text where a value ends. Blanks belong to the value only if more of it follows. -/
def splitValue : List Char → List Char × List Char
  | [] => ([], [])
  | c :: cs =>
    if c == ';' || c == '[' || isLineEnd c cs then ([], c :: cs)
    else
      let more := splitValue cs
      if isGap c cs && (startsProperty (splitGap cs).2 || more.1.isEmpty) then ([], c :: cs)
      else (c :: more.1, more.2)

/-! ## Lexemes -/

/-- The lexeme text that starts with `c` outside a value, and what follows it. -/
def splitNormal (c : Char) (cs : List Char) : TokenKind × List Char × List Char :=
  if c == ']' then (.rightBracket, [c], cs)
  else if c == '=' then (.equals, [c], cs)
  else if c == '-' && cs.head? == some '-' then
    let more := splitLine cs
    (.comment, c :: more.1, more.2)
  else if Token.isWordStart c then
    (.identifier, c :: cs.takeWhile Token.isWordChar, cs.dropWhile Token.isWordChar)
  else
    let more := splitWord cs
    (.value, c :: more.1, more.2)

/-- The lexeme text that starts with `c`, and what follows it. `gapped` tells whether blanks stand
before it. -/
def splitText (mode : ScanMode) (gapped : Bool) (c : Char) (cs : List Char) :
    TokenKind × List Char × List Char :=
  if c == '\n' then (.newline, [c], cs)
  else if c == '\r' then (.newline, c :: cs.take 1, cs.drop 1)
  else if c == ';' then (.semicolon, [c], cs)
  else if c == '[' then (.leftBracket, [c], cs)
  else if mode == .inValue && !(gapped && startsProperty (c :: cs)) then
    let more := splitValue cs
    (.value, c :: more.1, more.2)
  else splitNormal c cs

/-- The first lexeme of a text, and what follows it. -/
def Lexeme.next (mode : ScanMode) (cs : List Char) : Lexeme × List Char :=
  match splitGap cs with
  | (gap, []) => (⟨gap, .endOfFile, []⟩, [])
  | (gap, c :: rest) =>
    let piece := splitText mode (!gap.isEmpty) c rest
    (⟨gap, piece.1, piece.2.1⟩, piece.2.2)

/-- The mode after a token: an equals sign asks for a value. -/
def ScanMode.after (mode : ScanMode) : TokenKind → ScanMode
  | .equals => .inValue
  | .endOfFile => mode
  | _ => .normal

theorem splitGap_append (cs : List Char) : (splitGap cs).1 ++ (splitGap cs).2 = cs := by
  induction cs with
  | nil => rfl
  | cons c cs ih =>
    unfold splitGap
    split
    · simp [ih]
    · rfl

theorem splitLine_append (cs : List Char) : (splitLine cs).1 ++ (splitLine cs).2 = cs := by
  induction cs with
  | nil => rfl
  | cons c cs ih =>
    unfold splitLine
    split
    · rfl
    · simp [ih]

theorem splitWord_append (cs : List Char) : (splitWord cs).1 ++ (splitWord cs).2 = cs := by
  induction cs with
  | nil => rfl
  | cons c cs ih =>
    unfold splitWord
    split
    · rfl
    · simp [ih]

theorem splitValue_append (cs : List Char) : (splitValue cs).1 ++ (splitValue cs).2 = cs := by
  induction cs with
  | nil => rfl
  | cons c cs ih =>
    unfold splitValue
    split
    · rfl
    · dsimp only
      split
      · rfl
      · simp [ih]

theorem splitNormal_append (c : Char) (cs : List Char) :
    (splitNormal c cs).2.1 ++ (splitNormal c cs).2.2 = c :: cs := by
  unfold splitNormal
  split
  · rfl
  · split
    · rfl
    · split
      · simp [splitLine_append]
      · split
        · simp [List.takeWhile_append_dropWhile]
        · simp [splitWord_append]

theorem splitNormal_ne_nil (c : Char) (cs : List Char) : (splitNormal c cs).2.1 ≠ [] := by
  unfold splitNormal
  repeat' split
  all_goals simp

theorem splitText_append (mode : ScanMode) (gapped : Bool) (c : Char) (cs : List Char) :
    (splitText mode gapped c cs).2.1 ++ (splitText mode gapped c cs).2.2 = c :: cs := by
  unfold splitText
  repeat' split
  all_goals simp [splitValue_append, splitNormal_append, List.take_append_drop, -List.drop_one]

theorem splitText_ne_nil (mode : ScanMode) (gapped : Bool) (c : Char) (cs : List Char) :
    (splitText mode gapped c cs).2.1 ≠ [] := by
  unfold splitText
  repeat' split
  all_goals simp [splitNormal_ne_nil]

/-- Nothing is lost between a lexeme and what follows it. -/
theorem Lexeme.next_append (mode : ScanMode) (cs : List Char) :
    (Lexeme.next mode cs).1.gap ++ (Lexeme.next mode cs).1.text ++ (Lexeme.next mode cs).2
      = cs := by
  have h := splitGap_append cs
  unfold Lexeme.next
  split
  · next gap e => simpa [e] using h
  · next gap c rest e =>
    simp only [List.append_assoc, splitText_append]
    simpa [e] using h

/-- Only the end of the file has an empty text. -/
theorem Lexeme.next_text_ne_nil (mode : ScanMode) (cs : List Char)
    (h : (Lexeme.next mode cs).1.kind ≠ .endOfFile) : (Lexeme.next mode cs).1.text ≠ [] := by
  unfold Lexeme.next at h ⊢
  split
  · next e => simp [e] at h
  · exact splitText_ne_nil _ _ _ _

theorem Lexeme.next_length_lt (mode : ScanMode) (cs : List Char)
    (h : (Lexeme.next mode cs).1.kind ≠ .endOfFile) :
    (Lexeme.next mode cs).2.length < cs.length := by
  have e := congrArg List.length (Lexeme.next_append mode cs)
  have t := List.length_pos_iff.2 (Lexeme.next_text_ne_nil mode cs h)
  simp only [List.length_append] at e
  omega

/-- All lexemes of a text, the last one at its end. -/
def lexemes (mode : ScanMode) (cs : List Char) : List Lexeme :=
  let step := Lexeme.next mode cs
  if step.1.kind = .endOfFile then [step.1]
  else step.1 :: lexemes (mode.after step.1.kind) step.2
termination_by cs.length
decreasing_by
  rename_i h
  exact Lexeme.next_length_lt mode cs h

/-! ## Places -/

/-- A place in the file and the bytes before it. -/
structure Place where
  offset : Nat
  position : Position
deriving DecidableEq, Repr

/-- The start of a file. -/
def Place.start : Place :=
  ⟨0, ⟨1, 0⟩⟩

def Place.after (place : Place) (cs : List Char) : Place :=
  ⟨place.offset + byteLength cs, place.position.after cs⟩

/-- The token of a lexeme whose blanks start at a place. -/
def Lexeme.toToken (l : Lexeme) (place : Place) : Token :=
  ⟨l.kind, String.ofList l.gap, String.ofList l.text, (place.after l.gap).position,
   (place.after l.gap).offset⟩

/-- Gives each lexeme its place, the first one's blanks starting at `place`. -/
def placeLexemes : Place → List Lexeme → List Token
  | _, [] => []
  | place, l :: ls => l.toToken place :: placeLexemes ((place.after l.gap).after l.text) ls

/-- Scans one token: the token, the place after it and the mode for the next. -/
def Token.next (mode : ScanMode) (place : Place) (cs : List Char) : Token × Place × ScanMode :=
  let l := (Lexeme.next mode cs).1
  (l.toToken place, (place.after l.gap).after l.text, mode.after l.kind)

/-- Scans the token of a file at a place. -/
def Token.nextIn (source : String) (mode : ScanMode) (place : Place) : Token × Place × ScanMode :=
  Token.next mode place (dropBytes place.offset source.toList)

/-- The tokens of a file, the last one at its end. -/
def Token.scan (source : String) : List Token :=
  placeLexemes .start (lexemes .normal source.toList)

end ModCheck
