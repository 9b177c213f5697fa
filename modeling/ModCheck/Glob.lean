import ModCheck.Path
import ModCheck.Pattern.Language

/-
  Wildcard patterns. A star stands for any text and a question mark for any character, slashes
  included; a class in brackets stands for one of its characters, or for any other if it starts
  with an exclamation mark; two stars between slashes stand for any number of directories.
-/

namespace ModCheck

namespace Glob

/-- Characters of a class: from the first to the last. -/
structure CharSpan where
  first : Char
  last : Char
deriving DecidableEq, Repr

inductive Part where
  | char (c : Char)
  | anyChar
  | anySequence
  /-- Nothing, everything, or everything up to some slash. -/
  | anyDepth
  | oneOf (spans : List CharSpan)
  | noneOf (spans : List CharSpan)
deriving DecidableEq, Repr

def Part.char? : Part → Option Char
  | .char c => some c
  | _ => none

def inSpans (spans : List CharSpan) (c : Char) : Bool :=
  spans.any fun s => s.first ≤ c && c ≤ s.last

/-- A text and all its ends, the empty one last. -/
def suffixes : List Char → List (List Char)
  | [] => [[]]
  | c :: cs => (c :: cs) :: suffixes cs

/-- What follows the slashes of a text. -/
def afterSlashes : List Char → List (List Char)
  | [] => []
  | c :: cs => if c == '/' then cs :: afterSlashes cs else afterSlashes cs

/-- Whether a pattern matches a whole text. -/
def matchParts : List Part → List Char → Bool
  | [], cs => cs.isEmpty
  | .anySequence :: parts, cs => (suffixes cs).any (matchParts parts)
  | .anyDepth :: parts, cs => (cs :: afterSlashes cs ++ [[]]).any (matchParts parts)
  | _ :: _, [] => false
  | .char c :: parts, d :: cs => c == d && matchParts parts cs
  | .anyChar :: parts, _ :: cs => matchParts parts cs
  | .oneOf spans :: parts, d :: cs => inSpans spans d && matchParts parts cs
  | .noneOf spans :: parts, d :: cs => !inSpans spans d && matchParts parts cs

/-- The characters of a class: `a-c` is a span, other characters stand for themselves. -/
def readSpans : List Char → List CharSpan
  | a :: '-' :: b :: cs => ⟨a, b⟩ :: readSpans cs
  | a :: cs => ⟨a, a⟩ :: readSpans cs
  | [] => []

/-- A class after its opening bracket, and what follows its closing one. The first character of a
class never closes it. -/
def readClass (cs : List Char) : Option (Part × List Char) :=
  let (negated, body) := match cs with
    | '!' :: body => (true, body)
    | _ => (false, cs)
  match body with
  | [] => none
  | first :: more =>
    match more.dropWhile (· != ']') with
    | [] => none
    | _ :: rest =>
      let spans := readSpans (first :: more.takeWhile (· != ']'))
      some (if negated then .noneOf spans else .oneOf spans, rest)

theorem readClass_length_lt {cs rest : List Char} {part : Part}
    (h : readClass cs = some (part, rest)) : rest.length < cs.length := by
  unfold readClass at h
  simp only at h
  split at h
  · simp at h
  · rename_i first more heq
    have hbody : (first :: more).length ≤ cs.length := by
      rw [← heq]
      split <;> simp
    split at h
    · simp at h
    · rename_i c rest' hdrop
      simp only [Option.some.injEq, Prod.mk.injEq] at h
      obtain ⟨-, rfl⟩ := h
      have := (List.dropWhile_suffix (l := more) (· != ']')).length_le
      rw [hdrop] at this
      simp only [List.length_cons] at this hbody
      omega

/-- Reads a pattern; `fresh` tells whether it starts after a slash or at the very start. Two stars
have to fill the space between slashes, and more are not allowed. -/
def readParts (fresh : Bool) : List Char → Option (List Part)
  | [] => some []
  | '?' :: rest => (readParts false rest).map (.anyChar :: ·)
  | '[' :: rest =>
    match h : readClass rest with
    | none => none
    | some (part, after) =>
      have : after.length < rest.length := readClass_length_lt h
      (readParts false after).map (part :: ·)
  | ['*', '*'] => if fresh then some [.anyDepth] else none
  | '*' :: '*' :: '/' :: rest =>
    if fresh then (readParts true rest).map (.anyDepth :: ·) else none
  | '*' :: '*' :: _ => none
  | '*' :: rest => (readParts false rest).map (.anySequence :: ·)
  | c :: rest => (readParts (c == '/') rest).map (.char c :: ·)
termination_by cs => cs.length

end Glob

/-- A pattern. -/
structure Glob where
  parts : List Glob.Part
deriving DecidableEq, Repr

namespace Glob

def parse? (text : String) : Option Glob :=
  (readParts true text.toList).map (⟨·⟩)

/-- Whether a text matches. -/
def isIn (g : Glob) (text : String) : Bool :=
  matchParts g.parts text.toList

/-- The language of wildcard patterns. -/
def language : PatternLanguage := fun text =>
  (parse? text).map isIn

/-- The text of a pattern that matches only that text. -/
def literal? (g : Glob) : Option String :=
  (g.parts.mapM Part.char?).map String.ofList

/-- Whether a pattern is two stars, for directories at any depth. -/
def isDeep (g : Glob) : Bool :=
  g.parts == [.anyDepth]

end Glob

end ModCheck
