import ModCheck.Decimal.Binary64
import ModCheck.Position

/-
  Formulas: sums and products of numbers, names and calls. A call is a name with a chain of
  arguments, `name:a:b`, or with a body in parentheses, `name(…)` and `name:a(…)`. A body comes last
  and there is only one, as in every formula that is read from a text. Every part knows which
  characters of the formula it stands on.
-/

namespace ModCheck

inductive BinaryOperator where
  | add
  | subtract
  | multiply
  | divide
deriving DecidableEq, Repr

def BinaryOperator.symbol : BinaryOperator → String
  | .add => "+"
  | .subtract => "-"
  | .multiply => "*"
  | .divide => "/"

/-- An argument of a chain: a number with its sign or a name, and the sign before it. -/
structure Argument where
  text : String
  isNumber : Bool
  span : CharRange
  delimiter : Char
  /-- The character number of the delimiter. -/
  delimiterOffset : Nat
deriving DecidableEq, Repr

/-- A call without its body; the span covers the body too. -/
structure Call where
  name : String
  nameSpan : CharRange
  arguments : List Argument
  span : CharRange
deriving DecidableEq, Repr

inductive Formula where
  | literal (value : Binary64) (span : CharRange)
  | variable (name : String) (span : CharRange)
  | negation (operand : Formula) (span : CharRange)
  | binary (op : BinaryOperator) (left right : Formula) (span : CharRange)
  /-- A call with a chain of arguments only. -/
  | chain (call : Call)
  /-- A call with a body; the span of the body includes the parentheses. -/
  | applied (call : Call) (body : Formula) (bodySpan : CharRange)
deriving DecidableEq, Repr

namespace Formula

def span : Formula → CharRange
  | .literal _ span => span
  | .variable _ span => span
  | .negation _ span => span
  | .binary _ _ _ span => span
  | .chain call => call.span
  | .applied call _ _ => call.span

/-- Why a text is not a formula, and at which character. -/
inductive Fault where
  | empty
  | unexpectedChar (c : Char) (offset : Nat)
  | invalidNumber (text : String) (offset : Nat)
  | unexpectedToken (text : String) (offset : Nat)
  | unexpectedEnd (offset : Nat)
  | unaryPlus (offset : Nat)
  | grouping (offset : Nat)
  | missingArgument (delimiter : Char) (offset : Nat)
  | unclosedParenthesis (offset : Nat)
deriving DecidableEq, Repr

def Fault.message : Fault → String
  | .empty => "formula is empty"
  | .unexpectedChar c _ => "unexpected character '" ++ c.toString ++ "'"
  | .invalidNumber text _ => "invalid number '" ++ text ++ "'"
  | .unexpectedToken text _ => "unexpected '" ++ text ++ "'"
  | .unexpectedEnd _ => "formula ends unexpectedly"
  | .unaryPlus _ => "unary '+' is not supported; drop the sign"
  | .grouping _ => "grouping parentheses are not supported"
  | .missingArgument delimiter _ => "expected an argument after '" ++ delimiter.toString ++ "'"
  | .unclosedParenthesis _ => "'(' is never closed"

def Fault.offset : Fault → Nat
  | .empty => 0
  | .unexpectedChar _ offset => offset
  | .invalidNumber _ offset => offset
  | .unexpectedToken _ offset => offset
  | .unexpectedEnd offset => offset
  | .unaryPlus offset => offset
  | .grouping offset => offset
  | .missingArgument _ offset => offset
  | .unclosedParenthesis offset => offset

end Formula

end ModCheck
