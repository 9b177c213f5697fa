import ModCheck.Text.Piece

/-
  Rich text: plain text with tags `<name=argument=argument>` in it. A tag runs from an opening
  angle bracket to the first closing one after it; an opening bracket without a closing one is
  plain text.
-/

namespace ModCheck.RichText

open Text (Piece splitPieces)

/-- An argument of a tag, with the blanks around it. -/
structure TagArgument where
  text : String
  range : CharRange
deriving DecidableEq, Repr

/-- Whether an argument holds nothing but blanks. -/
def TagArgument.isEmpty (argument : TagArgument) : Bool :=
  argument.text.toList.all Text.isBlank

/-- A tag; its name is without the blanks around it. -/
structure Tag where
  name : String
  nameRange : CharRange
  arguments : List TagArgument
  range : CharRange
  source : String
deriving DecidableEq, Repr

inductive Segment where
  | text (source : String) (range : CharRange)
  | tag (tag : Tag)
deriving DecidableEq, Repr

def Segment.source : Segment → String
  | .text source _ => source
  | .tag t => t.source

def Segment.range : Segment → CharRange
  | .text _ range => range
  | .tag t => t.range

/-- The tag whose opening bracket has the number `pos` and between whose brackets `inner` stands. -/
def readTag (pos : Nat) (inner : List Char) : Tag :=
  let pieces := splitPieces '=' (pos + 1) inner
  let name := (pieces.headD ⟨inner, ⟨pos + 1, pos + 1 + inner.length⟩⟩).trim
  { name := String.ofList name.text
    nameRange := name.range
    arguments := pieces.tail.map fun p => ⟨String.ofList p.text, p.range⟩
    range := ⟨pos, pos + inner.length + 2⟩
    source := String.ofList ('<' :: inner ++ ['>']) }

/-- A text as a segment, if there is any. -/
def textSegment (pos : Nat) (cs : List Char) : List Segment :=
  if cs.isEmpty then [] else [.text (String.ofList cs) ⟨pos, pos + cs.length⟩]

set_option linter.unusedVariables false in
/-- The segments of a text whose first character has the number `pos`. -/
def segmentsFrom (pos : Nat) (cs : List Char) : List Segment :=
  match h : cs.dropWhile (· != '<') with
  | [] => textSegment pos cs
  | _ :: rest =>
    if rest.contains '>' then
      let text := cs.takeWhile (· != '<')
      let inner := rest.takeWhile (· != '>')
      let opening := pos + text.length
      textSegment pos text ++
        .tag (readTag opening inner) ::
          segmentsFrom (opening + inner.length + 2) (rest.drop (inner.length + 1))
    else textSegment pos cs
termination_by cs.length
decreasing_by
  have := (List.dropWhile_suffix (l := cs) (· != '<')).length_le
  rw [h] at this
  simp only [List.length_cons, List.length_drop] at this ⊢
  omega

/-- The segments of a text. -/
def segments (value : String) : List Segment :=
  segmentsFrom 0 value.toList

end ModCheck.RichText
