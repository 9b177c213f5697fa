import ModCheck.Text.Alphabetic
import ModCheck.Text.Blank
import ModCheck.Text.Numeric

/-
  Patterns that texts are searched for, and the search. What is left of a pattern after a
  character has been matched is a pattern again, its derivative.
-/

namespace ModCheck

/-- A class of characters inside a pattern. -/
inductive CharClass where
  | single (c : Char)
  | range (low high : Char)
  | any
  /-- Every character but the line feed. -/
  | notNewline
  | digit
  | word
  | space
  | negated (c : CharClass)
  | union (a b : CharClass)
  | nothing
deriving DecidableEq, Repr

/-- Whether a character belongs to the class. -/
def CharClass.contains : CharClass → Char → Bool
  | .single d, c => c == d
  | .range low high, c => low.toNat ≤ c.toNat && c.toNat ≤ high.toNat
  | .any, _ => true
  | .notNewline, c => c != '\n'
  | .digit, c => Text.isDecimalDigit c
  | .word, c => Text.isAlphabetic c || Text.isDecimalDigit c || c == '_'
  | .space, c => Text.isBlank c
  | .negated a, c => !a.contains c
  | .union a b, c => a.contains c || b.contains c
  | .nothing, _ => false

inductive Pattern where
  | nothing
  | empty
  | one (c : CharClass)
  | seq (a b : Pattern)
  | alt (a b : Pattern)
  | star (a : Pattern)
  /-- The start of the text. -/
  | start
  /-- The end of the text. -/
  | stop
deriving DecidableEq, Repr

namespace Pattern

/-- Whether the pattern matches no character, at the start or end of the text as told. -/
def nullable (atStart atEnd : Bool) : Pattern → Bool
  | .nothing => false
  | .empty => true
  | .one _ => false
  | .seq a b => a.nullable atStart atEnd && b.nullable atStart atEnd
  | .alt a b => a.nullable atStart atEnd || b.nullable atStart atEnd
  | .star _ => true
  | .start => atStart
  | .stop => atEnd

/-- `a` followed by `b`, left out where that can match nothing. -/
def seqOf : Pattern → Pattern → Pattern
  | .nothing, _ => .nothing
  | .empty, b => b
  | a, b => .seq a b

/-- One of two patterns, each once. -/
def altOf : Pattern → Pattern → Pattern
  | .nothing, b => b
  | a, .nothing => a
  | a, b => if a = b then a else .alt a b

/-- What is left of a pattern after the character `c`. -/
def derivative (atStart : Bool) (c : Char) : Pattern → Pattern
  | .nothing => .nothing
  | .empty => .nothing
  | .one s => if s.contains c then .empty else .nothing
  | .seq a b =>
    let left := seqOf (a.derivative atStart c) b
    if a.nullable atStart false then altOf left (b.derivative atStart c) else left
  | .alt a b => altOf (a.derivative atStart c) (b.derivative atStart c)
  | .star a => seqOf (a.derivative atStart c) (.star a)
  | .start => .nothing
  | .stop => .nothing

/-- Whether the pattern matches all of a text that starts or does not start here. -/
def matchesFrom (atStart : Bool) (p : Pattern) : List Char → Bool
  | [] => p.nullable atStart true
  | c :: cs => matchesFrom false (p.derivative atStart c) cs

/-- Whether the pattern matches some part of the text. -/
def isIn (p : Pattern) (text : String) : Bool :=
  let anything : Pattern := .star (.one .any)
  matchesFrom true (.seq anything (.seq p anything)) text.toList

/-- `p` between `least` and `most` times. -/
def repeated (p : Pattern) (least : Nat) (most : Option Nat) : Pattern :=
  let tail : Pattern := match most with
    | none => .star p
    | some n =>
      (List.replicate (n - least) p).foldr (fun a rest => .alt .empty (.seq a rest)) .empty
  (List.replicate least p).foldr .seq tail

end Pattern

end ModCheck
