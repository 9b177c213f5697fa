import ModCheck.Formula
import ModCheck.Text.Alphabetic
import ModCheck.Text.Blank
import ModCheck.Text.Numeric

/-
  The tokens of a formula: numbers, names and eight signs, with blanks anywhere between them.
-/

namespace ModCheck.Formula

open Text (isAlphabetic isBlank isNumeric)

inductive TokenKind where
  | number (value : Binary64)
  | ident
  | colon
  | comma
  | plus
  | minus
  | star
  | slash
  | leftParen
  | rightParen
deriving DecidableEq, Repr

structure Token where
  kind : TokenKind
  text : String
  span : CharRange
deriving DecidableEq, Repr

/-- The kind of a sign. -/
def signKind? : Char → Option TokenKind
  | ':' => some .colon
  | ',' => some .comma
  | '+' => some .plus
  | '-' => some .minus
  | '*' => some .star
  | '/' => some .slash
  | '(' => some .leftParen
  | ')' => some .rightParen
  | _ => none

def isNameStart (c : Char) : Bool :=
  isAlphabetic c || c == '_'

def isNameChar (c : Char) : Bool :=
  isAlphabetic c || isNumeric c || c == '_' || c == '.'

/-- The digits in front. -/
def leadingDigits (cs : List Char) : List Char :=
  cs.takeWhile Char.isDigit

/-- A point and the digits after it, if a point stands in front. -/
def leadingFraction : List Char → List Char
  | '.' :: cs => '.' :: leadingDigits cs
  | _ => []

/-- An exponent, if one with digits stands in front. -/
def leadingExponent : List Char → List Char
  | [] => []
  | mark :: cs =>
    if mark == 'e' || mark == 'E' then
      let sign := match cs with
        | '+' :: _ => ['+']
        | '-' :: _ => ['-']
        | _ => []
      let digits := leadingDigits (cs.drop sign.length)
      if digits.isEmpty then [] else mark :: (sign ++ digits)
    else []

/-- The longest number in front: digits, a fraction, an exponent. -/
def leadingNumber (cs : List Char) : List Char :=
  let whole := leadingDigits cs
  let fraction := leadingFraction (cs.drop whole.length)
  let mantissa := whole ++ fraction
  mantissa ++ leadingExponent (cs.drop mantissa.length)

/-- Whether a number starts with `c`, when `cs` follows. -/
def startsNumber (c : Char) (cs : List Char) : Bool :=
  c.isDigit || (c == '.' && cs.head?.any Char.isDigit)

/-- The kind and text of the token that starts with `c` at character `pos`. -/
def leadingToken (pos : Nat) (c : Char) (cs : List Char) : Except Fault (TokenKind × List Char) :=
  match signKind? c with
  | some kind => .ok (kind, [c])
  | none =>
    if startsNumber c cs then
      let text := leadingNumber (c :: cs)
      match Decimal.parse? text with
      | some d => .ok (.number (.ofDecimal d), text)
      | none => .error (.invalidNumber (String.ofList text) pos)
    else if isNameStart c then .ok (.ident, c :: cs.takeWhile isNameChar)
    else .error (.unexpectedChar c pos)

/-- The tokens of a text whose first character has the number `pos`. -/
def tokensFrom (pos : Nat) : List Char → Except Fault (List Token)
  | [] => .ok []
  | c :: cs =>
    if isBlank c then tokensFrom (pos + 1) cs
    else match leadingToken pos c cs with
      | .error fault => .error fault
      | .ok (kind, text) =>
        match tokensFrom (pos + text.length) (cs.drop (text.length - 1)) with
        | .error fault => .error fault
        | .ok tokens => .ok (⟨kind, String.ofList text, ⟨pos, pos + text.length⟩⟩ :: tokens)
termination_by cs => cs.length
decreasing_by
  · exact Nat.lt_succ_self _
  · simp only [List.length_drop, List.length_cons]
    omega

/-- The tokens of a formula. -/
def scan (text : String) : Except Fault (List Token) :=
  tokensFrom 0 text.toList

end ModCheck.Formula
