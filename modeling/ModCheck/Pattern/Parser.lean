import ModCheck.Decimal.Literal
import ModCheck.Pattern
import ModCheck.Pattern.Language

/-
  The written form of patterns: literal characters, the point for any of them, classes in square
  brackets, backslash escapes, groups, alternatives, anchors and repetition. There is more to
  patterns as they are written elsewhere, such as marks for case, boundaries of words, classes by
  name and characters by number; these are refused.
-/

namespace ModCheck.Pattern

/-- The signs of a written pattern. -/
inductive Sign where
  | one (c : CharClass)
  | openGroup
  | closeGroup
  | bar
  | repetition (least : Nat) (most : Option Nat)
  | start
  | stop
deriving DecidableEq, Repr

/-- The class of an escaped letter. -/
def escapedClass? : Char → Option CharClass
  | 'd' => some .digit
  | 'D' => some (.negated .digit)
  | 'w' => some .word
  | 'W' => some (.negated .word)
  | 's' => some .space
  | 'S' => some (.negated .space)
  | 'n' => some (.single '\n')
  | 't' => some (.single '\t')
  | 'r' => some (.single '\r')
  | 'f' => some (.single '\x0c')
  | 'v' => some (.single '\x0b')
  | 'a' => some (.single '\x07')
  | c =>
    if c.toNat < 128 && !c.isAlphanum && !Text.isBlank c && c != '<' && c != '>' && 32 < c.toNat
        && c.toNat != 127 then
      some (.single c)
    else none

/-- A counted repetition after its opening brace: the counts, and the characters up to and with the
closing brace. -/
def counts? (cs : List Char) : Option (Nat × Option Nat × Nat) :=
  let first := cs.takeWhile Char.isDigit
  let least := Decimal.digitsFrom 0 first
  match cs.drop first.length with
  | '\x7d' :: _ => if first.isEmpty then none else some (least, some least, first.length + 1)
  | ',' :: rest =>
    let second := rest.takeWhile Char.isDigit
    match rest.drop second.length with
    | '\x7d' :: _ =>
      let length := first.length + second.length + 2
      if second.isEmpty then (if first.isEmpty then none else some (least, none, length))
      else
        let most := Decimal.digitsFrom 0 second
        if most < least then none else some (least, some most, length)
    | _ => none
  | _ => none

/-- The member of a class that starts with `c`, and how many characters after `c` it takes. -/
def member? (c : Char) (cs : List Char) : Option (CharClass × Nat) :=
  if c == '\x5c' then
    match cs with
    | d :: _ => (escapedClass? d).map (·, 1)
    | [] => none
  else if c == '[' then none
  else some (.single c, 0)

/-- A member, or the range that it starts; a hyphen before the closing bracket is a member. -/
def memberOrRange? (c : Char) (cs : List Char) : Option (CharClass × Nat) :=
  match member? c cs with
  | none => none
  | some (item, n) =>
    match item, cs.drop n with
    | .single low, '-' :: d :: more =>
      if d == ']' then some (item, n)
      else match member? d more with
        | some (.single high, k) =>
          if high.toNat < low.toNat then none else some (.range low high, n + 2 + k)
        | _ => none
    | _, _ => some (item, n)

/-- The members of a class up to its closing bracket, and how many characters they take with it.
A bracket that comes first is a member. -/
def members? (first : Bool) (sum : CharClass) (taken : Nat) :
    List Char → Option (CharClass × Nat)
  | [] => none
  | c :: cs =>
    if !first && c == ']' then some (sum, taken + 1)
    else match memberOrRange? c cs with
      | none => none
      | some (item, n) => members? false (.union sum item) (taken + 1 + n) (cs.drop n)
termination_by cs => cs.length
decreasing_by
  simp only [List.length_drop, List.length_cons]
  omega

/-- A class after its opening bracket. -/
def class? (cs : List Char) : Option (CharClass × Nat) :=
  match cs with
  | '^' :: rest => (members? true .nothing 1 rest).map fun (sum, n) => (.negated sum, n)
  | _ => members? true .nothing 0 cs

/-- What an opening parenthesis takes with it: a mark that names the group or leaves it unnamed. -/
def groupMark? : List Char → Option Nat
  | '?' :: ':' :: _ => some 2
  | '?' :: 'P' :: '<' :: rest => groupName? 3 rest
  | '?' :: '<' :: rest => groupName? 2 rest
  | '?' :: _ => none
  | _ => some 0
where
  groupName? (taken : Nat) (rest : List Char) : Option Nat :=
    let name := rest.takeWhile fun c => Text.isAlphabetic c || c.isDigit || c == '_'
    if name.isEmpty || (rest.drop name.length).head? != some '>' then none
    else some (taken + name.length + 1)

/-- A repetition, and the question mark after it that asks for as few as possible; that makes no
difference to whether there is a match. -/
def repetition (least : Nat) (most : Option Nat) (taken : Nat) (rest : List Char) : Sign × Nat :=
  (.repetition least most, if rest.head? == some '?' then taken + 1 else taken)

/-- The sign that starts with `c`, and how many characters after `c` it takes. -/
def sign? (c : Char) (cs : List Char) : Option (Sign × Nat) :=
  match c with
  | '(' => (groupMark? cs).map (Sign.openGroup, ·)
  | ')' => some (.closeGroup, 0)
  | '|' => some (.bar, 0)
  | '^' => some (.start, 0)
  | '$' => some (.stop, 0)
  | '.' => some (.one .notNewline, 0)
  | '*' => some (repetition 0 none 0 cs)
  | '+' => some (repetition 1 none 0 cs)
  | '?' => some (repetition 0 (some 1) 0 cs)
  | '\x7b' => (counts? cs).map fun (least, most, n) => repetition least most n (cs.drop n)
  | '[' => (class? cs).map fun (sum, n) => (.one sum, n)
  | '\x5c' => match cs with
    | d :: _ => (escapedClass? d).map (Sign.one ·, 1)
    | [] => none
  | _ => some (.one (.single c), 0)

/-- The signs of a written pattern. -/
def signs? : List Char → Option (List Sign)
  | [] => some []
  | c :: cs =>
    match sign? c cs with
    | none => none
    | some (sign, n) => (signs? (cs.drop n)).map (sign :: ·)
termination_by cs => cs.length
decreasing_by
  simp only [List.length_drop, List.length_cons]
  omega

/-- A group that is being read: finished alternatives, and the parts of the current one, the last
part first. -/
structure Frame where
  alternatives : List Pattern
  parts : List Pattern

/-- The current alternative of a group. -/
def Frame.current (f : Frame) : Pattern :=
  f.parts.foldl (fun rest a => .seq a rest) .empty

/-- The pattern of a group. -/
def Frame.close (f : Frame) : Pattern :=
  f.alternatives.foldr .alt f.current

/-- Adds a part to the innermost group. -/
def addPart (p : Pattern) : List Frame → Option (List Frame)
  | [] => none
  | f :: fs => some ({ f with parts := p :: f.parts } :: fs)

/-- Reads one sign; the innermost open group comes first. -/
def step (frames : List Frame) : Sign → Option (List Frame)
  | .one c => addPart (.one c) frames
  | .start => addPart .start frames
  | .stop => addPart .stop frames
  | .openGroup => some (⟨[], []⟩ :: frames)
  | .closeGroup => match frames with
    | f :: outer :: fs => addPart f.close (outer :: fs)
    | _ => none
  | .bar => match frames with
    | f :: fs => some (⟨f.alternatives ++ [f.current], []⟩ :: fs)
    | [] => none
  | .repetition least most => match frames with
    | ⟨alternatives, p :: parts⟩ :: fs =>
      some (⟨alternatives, p.repeated least most :: parts⟩ :: fs)
    | _ => none

/-- Reads a pattern; malformed ones are refused. -/
def parse? (text : String) : Option Pattern :=
  match (signs? text.toList).bind fun signs => signs.foldlM step [⟨[], []⟩] with
  | some [f] => some f.close
  | _ => none

/-- The language of the patterns that can be read. -/
def language : PatternLanguage := fun text =>
  (parse? text).map isIn

end ModCheck.Pattern
