import ModCheck.Json.Parser
import ModCheck.Path
import ModCheck.Toml

/-
  Reading a document of tables line by line. Arrays may go over several lines, tables inside
  braces may not. Times and dates are not read.
-/

namespace ModCheck.Toml

/-! ## Characters and spaces -/

def isBlank (c : Char) : Bool :=
  c == ' ' || c == '\t'

/-- Characters that may stand in a text or a comment: no control characters but the tab. -/
def isTextChar (c : Char) : Bool :=
  c == '\t' || (32 ≤ c.toNat && c.toNat != 127)

/-- Characters of a key without quotes. -/
def isKeyChar (c : Char) : Bool :=
  c.isAlphanum || c == '_' || c == '-'

/-- Characters of a number or a truth value. -/
def isWordChar (c : Char) : Bool :=
  c.isAlphanum || c == '_' || c == '-' || c == '+' || c == '.'

def skipBlank (cs : List Char) : List Char :=
  cs.dropWhile isBlank

/-- Skips blanks, line ends and comments; `inComment` tells whether a comment has begun. -/
def skipVoid : (inComment : Bool) → List Char → Option (List Char)
  | _, [] => some []
  | _, '\n' :: cs => skipVoid false cs
  | _, '\r' :: '\n' :: cs => skipVoid false cs
  | true, c :: cs => if isTextChar c then skipVoid true cs else none
  | false, c :: cs =>
    if isBlank c then skipVoid false cs
    else if c == '#' then skipVoid true cs
    else some (c :: cs)

/-- Skips what may follow on a line: blanks and a comment. -/
def endLine : (inComment : Bool) → List Char → Option (List Char)
  | _, [] => some []
  | _, '\n' :: cs => some cs
  | _, '\r' :: '\n' :: cs => some cs
  | true, c :: cs => if isTextChar c then endLine true cs else none
  | false, c :: cs =>
    if isBlank c then endLine false cs
    else if c == '#' then endLine true cs
    else none

/-! ## Texts -/

/-- Puts a character before the text that was read after it. -/
def consChar (c : Option Char) (read : Option (List Char × List Char)) :
    Option (List Char × List Char) :=
  match c, read with
  | some c, some (cs, rest) => some (c :: cs, rest)
  | _, _ => none

/-- The character with a number. -/
def charOf? (n : Nat) : Option Char :=
  if n.isValidChar then some (Char.ofNat n) else none

/-- The character of eight hexadecimal digits. -/
def longChar? (a b c d e f g h : Char) : Option Char :=
  match Json.hexUnit? a b c d, Json.hexUnit? e f g h with
  | some high, some low => charOf? (high * 65536 + low)
  | _, _ => none

/-- The character of a one-letter escape. -/
def escaped? : Char → Option Char
  | '\x22' => some '\x22'
  | '\x5c' => some '\x5c'
  | 'b' => some '\x08'
  | 'f' => some '\x0c'
  | 'n' => some '\n'
  | 'r' => some '\r'
  | 't' => some '\t'
  | _ => none

/-- A text on one line, after its opening double quote. -/
def scanBasic : List Char → Option (List Char × List Char)
  | [] => none
  | '\x22' :: rest => some ([], rest)
  | '\x5c' :: 'u' :: a :: b :: c :: d :: rest =>
    consChar ((Json.hexUnit? a b c d).bind charOf?) (scanBasic rest)
  | '\x5c' :: 'U' :: a :: b :: c :: d :: e :: f :: g :: h :: rest =>
    consChar (longChar? a b c d e f g h) (scanBasic rest)
  | '\x5c' :: c :: rest => consChar (escaped? c) (scanBasic rest)
  | c :: rest => if isTextChar c then consChar (some c) (scanBasic rest) else none

/-- A text without escapes, after its opening quote. -/
def scanLiteral : List Char → Option (List Char × List Char)
  | [] => none
  | '\x27' :: rest => some ([], rest)
  | c :: rest => if isTextChar c then consChar (some c) (scanLiteral rest) else none

/-- Whether only blanks are left on a line that goes on. -/
def endsLine (cs : List Char) : Bool :=
  match skipBlank cs with
  | '\n' :: _ => true
  | '\r' :: '\n' :: _ => true
  | _ => false

/-- A text over several lines, after three double quotes; up to two more quotes may stand right
before the closing ones. A backslash at the end of a line skips to the next character that can be
seen; `skipping` tells that this is being done. -/
def scanLongBasic : (skipping : Bool) → List Char → Option (List Char × List Char)
  | _, [] => none
  | true, '\n' :: rest => scanLongBasic true rest
  | true, '\r' :: '\n' :: rest => scanLongBasic true rest
  | true, ' ' :: rest => scanLongBasic true rest
  | true, '\t' :: rest => scanLongBasic true rest
  | _, '\x22' :: '\x22' :: '\x22' :: '\x22' :: '\x22' :: rest => some (['\x22', '\x22'], rest)
  | _, '\x22' :: '\x22' :: '\x22' :: '\x22' :: rest => some (['\x22'], rest)
  | _, '\x22' :: '\x22' :: '\x22' :: rest => some ([], rest)
  | _, '\x5c' :: 'u' :: a :: b :: c :: d :: rest =>
    consChar ((Json.hexUnit? a b c d).bind charOf?) (scanLongBasic false rest)
  | _, '\x5c' :: 'U' :: a :: b :: c :: d :: e :: f :: g :: h :: rest =>
    consChar (longChar? a b c d e f g h) (scanLongBasic false rest)
  | _, '\x5c' :: c :: rest =>
    if endsLine (c :: rest) then scanLongBasic true (c :: rest)
    else consChar (escaped? c) (scanLongBasic false rest)
  | _, '\r' :: '\n' :: rest => consChar (some '\n') (scanLongBasic false rest)
  | _, '\n' :: rest => consChar (some '\n') (scanLongBasic false rest)
  | _, c :: rest => if isTextChar c then consChar (some c) (scanLongBasic false rest) else none

/-- A text over several lines without escapes, after three quotes. -/
def scanLongLiteral : List Char → Option (List Char × List Char)
  | [] => none
  | '\x27' :: '\x27' :: '\x27' :: '\x27' :: '\x27' :: rest => some (['\x27', '\x27'], rest)
  | '\x27' :: '\x27' :: '\x27' :: '\x27' :: rest => some (['\x27'], rest)
  | '\x27' :: '\x27' :: '\x27' :: rest => some ([], rest)
  | '\r' :: '\n' :: rest => consChar (some '\n') (scanLongLiteral rest)
  | '\n' :: rest => consChar (some '\n') (scanLongLiteral rest)
  | c :: rest => if isTextChar c then consChar (some c) (scanLongLiteral rest) else none

/-- A line end right after the opening quotes does not belong to the text. -/
def dropLineEnd : List Char → List Char
  | '\n' :: cs => cs
  | '\r' :: '\n' :: cs => cs
  | cs => cs

/-- A text that starts with a quote. -/
def scanText : List Char → Option (List Char × List Char)
  | '\x22' :: '\x22' :: '\x22' :: cs => scanLongBasic false (dropLineEnd cs)
  | '\x22' :: cs => scanBasic cs
  | '\x27' :: '\x27' :: '\x27' :: cs => scanLongLiteral (dropLineEnd cs)
  | '\x27' :: cs => scanLiteral cs
  | _ => none

/-! ## Numbers -/

/-- Digits with single underscores between them, without the underscores. -/
def digits? (isDigit : Char → Bool) (cs : List Char) : Option (List Char) :=
  let parts := splitAtChar '_' cs
  if parts.all fun part => !part.isEmpty && part.all isDigit then some parts.flatten else none

/-- The value of digits in a base. -/
def valueIn (base : Nat) (cs : List Char) : Nat :=
  cs.foldl (fun n c => n * base + (Json.hexValue? c).getD 0) 0

/-- Digits of a whole number: no zero before others. -/
def whole? (cs : List Char) : Option (List Char) :=
  match digits? Char.isDigit cs with
  | some ('0' :: _ :: _) => none
  | found => found

/-- A number in another base, after its mark. -/
def based? (base : Nat) (cs : List Char) : Option Json :=
  (digits? (fun c => (Json.hexValue? c).any (· < base)) cs).map fun ds => .ofNat (valueIn base ds)

/-- A number that is not whole, without its sign: its fraction and its exponent may be left out, but
not both. -/
def fractional? (negative : Bool) (cs : List Char) : Option Json := do
  let isMark (c : Char) : Bool := c == 'e' || c == 'E'
  let mantissa := cs.takeWhile (!isMark ·)
  let exponent := (cs.dropWhile (!isMark ·)).drop 1
  let hasExponent := mantissa.length < cs.length
  let whole ← whole? (mantissa.takeWhile (· != '.'))
  let hasFraction := mantissa.contains '.'
  let fraction ← if hasFraction
    then digits? Char.isDigit ((mantissa.dropWhile (· != '.')).drop 1) else some []
  let unsigned := match exponent with
    | '+' :: ds => ds
    | '-' :: ds => ds
    | ds => ds
  let power ← if hasExponent then digits? Char.isDigit unsigned else some []
  if !hasFraction && !hasExponent then none
  let sign := if exponent.head? == some '-' then ['-'] else []
  let text := whole ++ (if hasFraction then '.' :: fraction else [])
    ++ (if hasExponent then 'e' :: sign ++ power else [])
  (Decimal.parse? text).map fun d => .number ⟨negative, false, d⟩

/-- A number without its sign. -/
def unsigned? (negative : Bool) (cs : List Char) : Option Json :=
  if cs == ['i', 'n', 'f'] || cs == ['n', 'a', 'n'] then some (.number ⟨negative, false, ⟨0, 0⟩⟩)
  else match whole? cs with
    | some ds =>
      let n := valueIn 10 ds
      some (.number ⟨negative && n != 0, true, ⟨n, 0⟩⟩)
    | none => fractional? negative cs

/-- A truth value or a number. -/
def word? : List Char → Option Json
  | ['t', 'r', 'u', 'e'] => some (.bool true)
  | ['f', 'a', 'l', 's', 'e'] => some (.bool false)
  | '0' :: 'x' :: cs => based? 16 cs
  | '0' :: 'o' :: cs => based? 8 cs
  | '0' :: 'b' :: cs => based? 2 cs
  | '+' :: cs => unsigned? false cs
  | '-' :: cs => unsigned? true cs
  | cs => unsigned? false cs

/-! ## Keys and values -/

/-- One part of a key: a word, or a text on one line in quotes. -/
def scanKeyPart (cs : List Char) : Option (String × List Char) :=
  let bare := cs.takeWhile isKeyChar
  if !bare.isEmpty then some (String.ofList bare, cs.drop bare.length)
  else match cs with
    | '\x22' :: rest => (scanBasic rest).map fun (t, after) => (String.ofList t, after)
    | '\x27' :: rest => (scanLiteral rest).map fun (t, after) => (String.ofList t, after)
    | _ => none

/-- A key of parts with dots between them, and what follows the blanks after it. -/
def scanKey : (fuel : Nat) → List Char → Option (List String × List Char)
  | 0, _ => none
  | fuel + 1, cs => do
    let (part, rest) ← scanKeyPart (skipBlank cs)
    match skipBlank rest with
    | '.' :: more =>
      let (parts, after) ← scanKey fuel more
      some (part :: parts, after)
    | after => some ([part], after)

mutual

/-- A value; `fuel` bounds how far it goes and is at least the number of characters. -/
def scanValue : (fuel : Nat) → List Char → Option (Json × List Char)
  | 0, _ => none
  | _, [] => none
  | fuel + 1, c :: cs =>
    if c == '\x22' || c == '\x27' then
      (scanText (c :: cs)).map fun (t, rest) => (.ofString (String.ofList t), rest)
    else if c == '[' then
      (scanItems fuel cs).map fun (items, rest) => (.array items, rest)
    else if c == '\x7b' then
      match skipBlank cs with
      | '\x7d' :: rest => some (.object [], rest)
      | _ =>
        (scanFields fuel [] cs).map fun (entries, rest) => (.object (entriesToJson entries), rest)
    else
      let word := (c :: cs).takeWhile isWordChar
      (word? word).map fun value => (value, (c :: cs).drop word.length)

/-- The items of an array and its closing bracket. -/
def scanItems : (fuel : Nat) → List Char → Option (List Json × List Char)
  | 0, _ => none
  | fuel + 1, cs => do
    match ← skipVoid false cs with
    | ']' :: rest => some ([], rest)
    | start =>
      let (item, rest) ← scanValue fuel start
      match ← skipVoid false rest with
      | ']' :: after => some ([item], after)
      | ',' :: after =>
        let (items, last) ← scanItems fuel after
        some (item :: items, last)
      | _ => none

/-- The fields of a table in braces and its closing brace, added to those read before. -/
def scanFields : (fuel : Nat) → Entries → List Char → Option (Entries × List Char)
  | 0, _, _ => none
  | fuel + 1, entries, cs => do
    let (keys, rest) ← scanKey fuel cs
    match rest with
    | '=' :: start =>
      let (value, after) ← scanValue fuel (skipBlank start)
      let entries ← putValue value keys entries
      match skipBlank after with
      | '\x7d' :: last => some (entries, last)
      | ',' :: more => scanFields fuel entries more
      | _ => none
    | _ => none

end

/-! ## Documents -/

/-- The document from a line on. -/
def scanDocument : (fuel : Nat) → Document → List Char → Option Document
  | 0, _, _ => none
  | fuel + 1, d, cs => do
    match ← skipVoid false cs with
    | [] => some d
    | '[' :: '[' :: rest =>
      let (keys, after) ← scanKey fuel rest
      match after with
      | ']' :: ']' :: last => scanDocument fuel (← d.addAt? keys) (← endLine false last)
      | _ => none
    | '[' :: rest =>
      let (keys, after) ← scanKey fuel rest
      match after with
      | ']' :: last => scanDocument fuel (← d.openAt? keys) (← endLine false last)
      | _ => none
    | start =>
      let (keys, after) ← scanKey fuel start
      match after with
      | '=' :: more =>
        let (value, last) ← scanValue fuel (skipBlank more)
        scanDocument fuel (← d.put? keys value) (← endLine false last)
      | _ => none

/-- Reads a document; a byte order mark at its start does not matter. -/
def parse? (text : String) : Option Json :=
  let cs := match text.toList with
    | '\ufeff' :: cs => cs
    | cs => cs
  (scanDocument (cs.length + 1) .empty cs).map (·.toJson)

end ModCheck.Toml
