import ModCheck.Text.Printable

/-
  Texts in quotes. Characters that cannot be seen, and those that attach to the character before
  them, are written by their number.
-/

namespace ModCheck.Text

/-- A character by its number. -/
def numbered (c : Char) : List Char :=
  '\x5c' :: 'u' :: '\x7b' :: (Nat.toDigits 16 c.toNat ++ ['\x7d'])

def quoteChar (c : Char) : List Char :=
  if c == '\x00' then ['\x5c', '0']
  else if c == '\t' then ['\x5c', 't']
  else if c == '\r' then ['\x5c', 'r']
  else if c == '\n' then ['\x5c', 'n']
  else if c == '\x22' || c == '\x5c' then ['\x5c', c]
  else if isGraphemeExtend c || !isPrintable c then numbered c
  else [c]

/-- A text in double quotes. -/
def quoted (text : String) : String :=
  String.ofList ('\x22' :: (text.toList.flatMap quoteChar ++ ['\x22']))

end ModCheck.Text
