import ModCheck.Json

/-
  JSON text, on one line without spaces or with one item on each line.
-/

namespace ModCheck.Json

/-- A hexadecimal digit in lower case. -/
def hexDigit (n : Nat) : Char :=
  (Nat.digitChar (n % 16))

/-- A character inside a string: quotes, backslashes and control characters are escaped. -/
def escapeChar (c : Char) : List Char :=
  if c == '\x22' then ['\x5c', '\x22']
  else if c == '\x5c' then ['\x5c', '\x5c']
  else if c == '\n' then ['\x5c', 'n']
  else if c == '\r' then ['\x5c', 'r']
  else if c == '\t' then ['\x5c', 't']
  else if c == '\x08' then ['\x5c', 'b']
  else if c == '\x0c' then ['\x5c', 'f']
  else if c.toNat < 32 then
    ['\x5c', 'u', '0', '0', hexDigit (c.toNat / 16), hexDigit c.toNat]
  else [c]

/-- A string in quotes; one that holds no text is written as an empty one. -/
def quote (text : Option String) : List Char :=
  '\x22' :: ((text.getD "").toList.flatMap escapeChar ++ ['\x22'])

/-- A number in digits; fractions have all their digits, and an exponent if need be. -/
def printNumber (n : JsonNumber) : List Char :=
  let digits := Nat.toDigits 10 n.size.coefficient
  let tail := if n.size.exponent == 0 then [] else 'e' :: (toString n.size.exponent).toList
  (if n.negative then ['-'] else []) ++ digits ++ tail

/-- Joins texts with a comma and what follows it. -/
def joinItems (gap : List Char) : List (List Char) → List Char
  | [] => []
  | [item] => item
  | item :: items => item ++ ',' :: gap ++ joinItems gap items

mutual

/-- The text of a value on one line. -/
def compact : Json → List Char
  | .null => ['n', 'u', 'l', 'l']
  | .bool true => ['t', 'r', 'u', 'e']
  | .bool false => ['f', 'a', 'l', 's', 'e']
  | .number n => printNumber n
  | .string text => quote text
  | .array items => '[' :: joinItems [] (compactItems items) ++ [']']
  | .object fields => '\x7b' :: joinItems [] (compactFields fields) ++ ['\x7d']

def compactItems : List Json → List (List Char)
  | [] => []
  | item :: items => compact item :: compactItems items

def compactFields : List (Option String × Json) → List (List Char)
  | [] => []
  | (key, value) :: fields => (quote key ++ ':' :: compact value) :: compactFields fields

end

/-- A new line, indented by `depth` steps of two spaces. -/
def newLine (depth : Nat) : List Char :=
  '\n' :: List.replicate (2 * depth) ' '

mutual

/-- The text of a value over several lines; the first line stands at the indentation `depth`. -/
def prettyAt (depth : Nat) : Json → List Char
  | .array [] => ['[', ']']
  | .array (item :: items) =>
    '[' :: newLine (depth + 1)
      ++ joinItems (newLine (depth + 1)) (prettyItems (depth + 1) (item :: items))
      ++ newLine depth ++ [']']
  | .object [] => ['\x7b', '\x7d']
  | .object (field :: fields) =>
    '\x7b' :: newLine (depth + 1)
      ++ joinItems (newLine (depth + 1)) (prettyFields (depth + 1) (field :: fields))
      ++ newLine depth ++ ['\x7d']
  | .null => compact .null
  | .bool value => compact (.bool value)
  | .number n => printNumber n
  | .string text => quote text

def prettyItems (depth : Nat) : List Json → List (List Char)
  | [] => []
  | item :: items => prettyAt depth item :: prettyItems depth items

def prettyFields (depth : Nat) : List (Option String × Json) → List (List Char)
  | [] => []
  | (key, value) :: fields =>
    (quote key ++ ':' :: ' ' :: prettyAt depth value) :: prettyFields depth fields

end

/-- JSON text on one line. -/
def toCompact (j : Json) : String :=
  String.ofList j.compact

/-- JSON text over several lines. -/
def toPretty (j : Json) : String :=
  String.ofList (j.prettyAt 0)

end ModCheck.Json
