import ModCheck.Decimal.Shortest
import ModCheck.Formula
import ModCheck.Outline
import ModCheck.Text.Quoted

/-
  The outline of a formula: all its parts with the characters they stand on.
-/

namespace ModCheck

def CharRange.outline (r : CharRange) : Outline :=
  .fields "Span" [("start", .text (toString r.start)), ("end", .text (toString r.stop))]

def BinaryOperator.word : BinaryOperator → String
  | .add => "Add"
  | .subtract => "Sub"
  | .multiply => "Mul"
  | .divide => "Div"

/-- An argument with its value, its place and the sign before it. -/
def argumentOutline (value : Outline) (span : CharRange) (delimiter : Char) (offset : Nat) :
    Outline :=
  .fields "Argument" [("value", value), ("span", span.outline),
    ("delimiter", .text ("'" ++ delimiter.toString ++ "'")),
    ("delimiter_offset", .text (toString offset))]

def Argument.outline (a : Argument) : Outline :=
  argumentOutline
    (.wrapped (if a.isNumber then "Number" else "Identifier") (.text (Text.quoted a.text)))
    a.span a.delimiter a.delimiterOffset

/-- A call with the outlines of its arguments. -/
def Call.outline (c : Call) (arguments : List Outline) (style : String) : Outline :=
  .wrapped "Function" (.fields "FunctionCall" [("name", .text (Text.quoted c.name)),
    ("name_span", c.nameSpan.outline), ("args", .items arguments), ("style", .text style),
    ("span", c.span.outline)])

namespace Formula

def outline : Formula → Outline
  | .literal value span =>
    .fields "Literal" [("value", .text value.listingText), ("span", span.outline)]
  | .variable name span =>
    .fields "Variable" [("name", .text (Text.quoted name)), ("span", span.outline)]
  | .negation operand span =>
    .fields "Unary" [("operand", operand.outline), ("span", span.outline)]
  | .binary op left right span =>
    .fields "Binary" [("op", .text op.word), ("left", left.outline), ("right", right.outline),
      ("span", span.outline)]
  | .chain call => call.outline (call.arguments.map (·.outline)) "Colon"
  | .applied call body span =>
    call.outline
      (call.arguments.map (·.outline)
        ++ [argumentOutline (.wrapped "Formula" body.outline) span '(' span.start])
      "Paren"

end Formula

end ModCheck
