import ModCheck.Document.Object
import ModCheck.Token.Scanner

/-
  The shape of a mod file: tokens before the first bracket, then one section for each bracket. A
  section has a heading and statements. The reading of a section stops at the next bracket
  whatever is wrong in it, so sections do not influence each other.
-/

namespace ModCheck

/-- A left bracket and the tokens up to the next one. -/
structure Section where
  opening : Token
  tokens : List Token
deriving DecidableEq, Repr

/-- Cuts tokens at the left brackets: the tokens before the first, and the sections. Whatever
stands after the end of the file is dropped. -/
def splitSections : List Token → List Token × List Section
  | [] => ([], [])
  | t :: ts =>
    if t.kind = .endOfFile then ([], [])
    else
      let more := splitSections ts
      if t.kind = .leftBracket then ([], ⟨t, more.1⟩ :: more.2) else (t :: more.1, more.2)

/-! ## Headings -/

/-- How a section starts: with a type name, closed by a bracket or not, or without one. -/
inductive Heading where
  | named (name : Token) (closed : Bool)
  | unnamed
deriving DecidableEq, Repr

/-- What follows the first right bracket, if one stands before the end of the line. -/
def afterBracket? : List Token → Option (List Token)
  | [] => none
  | t :: ts =>
    if t.kind = .rightBracket then some ts
    else if t.kind = .newline then none
    else afterBracket? ts

/-- Skips to the end of a damaged heading; without a bracket on the line nothing is skipped. -/
def skipHeading (ts : List Token) : List Token :=
  (afterBracket? ts).getD ts

/-- The heading of a section and the tokens of its body. -/
def readHeading : List Token → Heading × List Token
  | [] => (.unnamed, [])
  | t :: ts =>
    if t.kind = .identifier then
      match ts with
      | [] => (.named t false, [])
      | close :: rest =>
        if close.kind = .rightBracket then (.named t true, rest)
        else (.named t false, skipHeading ts)
    else (.unnamed, skipHeading (t :: ts))

/-! ## Statements -/

/-- How a value ended: at a semicolon, at the next property on the same line, or without either. -/
inductive ValueClose where
  | semicolon
  | nextProperty
  | loose
deriving DecidableEq, Repr

/-- What a body consists of. -/
inductive Statement where
  /-- A property; `due` tells whether a semicolon is expected where none ended the value. -/
  | assignment (key equals : Token) (value : List Token) (ending : ValueClose) (due : Bool)
  /-- A name without an equals sign. -/
  | bareName (key : Token)
  /-- A token that starts no property. -/
  | stray (token : Token)
deriving DecidableEq, Repr

/-- Whether a property starts here. -/
def startsAssignment : List Token → Bool
  | key :: equals :: _ => key.kind = .identifier && equals.kind = .equals
  | _ => false

/-- Whether the first token after a line break ends a value. -/
def endsValue : List Token → Bool
  | [] => true
  | t :: ts => t.kind = .comment || startsAssignment (t :: ts)

/-- Drops the line breaks in front. -/
def skipNewlines : List Token → List Token
  | [] => []
  | t :: ts => if t.kind = .newline then skipNewlines ts else t :: ts

theorem skipNewlines_length_le (ts : List Token) : (skipNewlines ts).length ≤ ts.length := by
  induction ts with
  | nil => exact Nat.le_refl _
  | cons t ts ih =>
    unfold skipNewlines
    split
    · exact Nat.le_succ_of_le ih
    · exact Nat.le_refl _

/-- The tokens of a value, how it ended, and what follows. A line break ends the value if a
comment, another property or the end of the section comes next, and is skipped otherwise. -/
def readValue : List Token → List Token × ValueClose × List Token
  | [] => ([], .loose, [])
  | t :: ts =>
    if t.kind = .semicolon then ([], .semicolon, ts)
    else if t.kind = .comment then ([], .loose, t :: ts)
    else if t.kind = .newline then
      if endsValue (skipNewlines ts) then ([], .loose, t :: ts)
      else readValue (skipNewlines ts)
    else if startsAssignment (t :: ts) then ([], .nextProperty, t :: ts)
    else
      let more := readValue ts
      (t :: more.1, more.2)
termination_by ts => ts.length
decreasing_by
  · exact Nat.lt_succ_of_le (skipNewlines_length_le ts)
  · exact Nat.lt_succ_self _

/-- Whether a value that ended loosely lacks a semicolon: only a property or the end of the
section makes one necessary, line breaks and comments aside. -/
def semicolonDue : List Token → Bool
  | [] => true
  | t :: ts =>
    if t.kind = .newline || t.kind = .comment then semicolonDue ts
    else startsAssignment (t :: ts)

/-- Drops the rest of a damaged property: up to the end of the line, or through a semicolon. -/
def skipProperty : List Token → List Token
  | [] => []
  | t :: ts =>
    if t.kind = .newline then t :: ts
    else if t.kind = .semicolon then ts
    else skipProperty ts

theorem readValue_length_le (ts : List Token) : (readValue ts).2.2.length ≤ ts.length := by
  fun_induction readValue ts with
  | case1 => exact Nat.le_refl _
  | case2 => exact Nat.le_succ _
  | case3 => exact Nat.le_refl _
  | case4 => exact Nat.le_refl _
  | case5 t ts _ _ _ _ ih =>
    exact Nat.le_trans ih (Nat.le_succ_of_le (skipNewlines_length_le ts))
  | case6 => exact Nat.le_refl _
  | case7 t ts _ _ _ _ more ih => exact Nat.le_succ_of_le ih

theorem skipProperty_length_le (ts : List Token) : (skipProperty ts).length ≤ ts.length := by
  fun_induction skipProperty ts with
  | case1 => exact Nat.le_refl _
  | case2 => exact Nat.le_refl _
  | case3 => exact Nat.le_succ _
  | case4 t ts _ _ ih => exact Nat.le_succ_of_le ih

/-- The statements of a body. -/
def readStatements : List Token → List Statement
  | [] => []
  | t :: ts =>
    if t.kind = .newline || t.kind = .comment || t.kind = .semicolon then readStatements ts
    else if t.kind = .identifier then
      match ts with
      | [] => [.bareName t]
      | e :: vs =>
        if e.kind = .equals then
          let value := readValue vs
          .assignment t e value.1 value.2.1 (semicolonDue value.2.2) :: readStatements value.2.2
        else .bareName t :: readStatements (skipProperty (e :: vs))
    else .stray t :: readStatements (skipProperty ts)
termination_by ts => ts.length
decreasing_by
  · exact Nat.lt_succ_self _
  · exact Nat.lt_succ_of_le (Nat.le_succ_of_le (readValue_length_le vs))
  · exact Nat.lt_succ_of_le (skipProperty_length_le (e :: vs))
  · exact Nat.lt_succ_of_le (skipProperty_length_le ts)

/-! ## Blocks -/

/-- A section that has been read. -/
structure Block where
  opening : Token
  heading : Heading
  statements : List Statement
deriving DecidableEq, Repr

def Section.toBlock (s : Section) : Block :=
  let heading := readHeading s.tokens
  ⟨s.opening, heading.1, readStatements heading.2⟩

end ModCheck
