import ModCheck.Fault
import ModCheck.Message
import ModCheck.Position.Address

/-
  Applying corrections to a text. Of two corrections that touch the same text the first one wins.
  The others are put in from the end of the text backwards, so that places before them stay where
  they were.
-/

namespace ModCheck

/-- A correction with the characters it replaces, by number. -/
structure Edit where
  start : Nat
  stop : Nat
  correction : Correction
deriving DecidableEq, Repr

/-- Finds the characters of a correction. -/
def Edit.locate (text : List Char) (c : Correction) : Except CorrectionFault Edit :=
  if c.isOrdered then
    match c.span.start.index? text with
    | none => .error (.outside c.span.start)
    | some start =>
      match c.span.stop.index? text with
      | none => .error (.outside c.span.stop)
      | some stop => .ok ⟨start, stop, c⟩
  else .error (.endsEarly c.span)

/-- Whether two edits touch the same text. An insertion collides only with another one at the same
place or with an edit around it. -/
def Edit.conflicts (a b : Edit) : Bool :=
  match a.start == a.stop, b.start == b.stop with
  | true, true => a.start == b.start
  | true, false => b.start < a.start && a.start < b.stop
  | false, true => a.start < b.start && b.start < a.stop
  | false, false => a.start < b.stop && b.start < a.stop

/-- Edits to make, and corrections to leave out, in the order given. -/
structure Plan where
  accepted : List Edit := []
  skipped : List Correction := []
deriving DecidableEq, Repr

/-- Adds an edit unless it collides with one that is accepted. -/
def Plan.add (plan : Plan) (e : Edit) : Plan :=
  if plan.accepted.any (·.conflicts e) then { plan with skipped := plan.skipped ++ [e.correction] }
  else { plan with accepted := plan.accepted ++ [e] }

/-- Replaces the characters of an edit. -/
def Edit.splice (text : List Char) (e : Edit) : List Char :=
  text.take e.start ++ e.correction.replacement.toList ++ text.drop e.stop

/-- Whether `a` is put in before `b`: later ones first, and of two with the same start the
longer. -/
def Edit.isLater (a b : Edit) : Bool :=
  b.start < a.start || (a.start == b.start && b.stop ≤ a.stop)

/-- Makes all accepted edits. -/
def Plan.run (plan : Plan) (text : List Char) : List Char :=
  (plan.accepted.mergeSort Edit.isLater).foldl Edit.splice text

/-- The text after corrections, how many were made, and which were left out. -/
structure Corrected where
  output : String
  applied : Nat
  skipped : List Correction
deriving DecidableEq, Repr

def Corrected.changed (o : Corrected) : Bool :=
  0 < o.applied

/-- Applies corrections; all of them fail if one does not fit the text. -/
def Correction.applyAll (source : String) (corrections : List Correction) :
    Except CorrectionFault Corrected :=
  match corrections.mapM (Edit.locate source.toList) with
  | .error fault => .error fault
  | .ok edits =>
    let plan := edits.foldl Plan.add {}
    .ok ⟨String.ofList (plan.run source.toList), plan.accepted.length, plan.skipped⟩

end ModCheck
