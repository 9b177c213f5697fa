import Mathlib.Order.Bounds.Basic
import ModCheck.Suggestion.EditDistance

/-
  The edit distance is the least number of edits. An edit puts in, takes out or exchanges one
  character anywhere in a text (`CharEdit`, and `CharEdits` for a number of them). Edits come in any
  order, so a recurrence over the texts says nothing about them. Read side by side, two texts have a
  first place, and the places where they differ can be counted (`Aligned`): the least count follows
  the recurrence (`distant_cons_cons`). An alignment can be carried out edit by edit
  (`Aligned.edits`), and edits can be merged into an alignment with no more places
  (`CharEdits.aligned`), so both have the same least number. Every entry of a row is the least
  number for its two beginnings, and the next character keeps it so (`Row.nextRow`). Main statement:
  `editDistance_metric`.
-/

namespace ModCheck

open List
open Text (lowerChars)

variable {as bs seen xs ys : List Char} {n : Nat} {row : List Nat}

/-! ## Edits -/

/-- One edit of a text: a character is put in, taken out or exchanged. -/
inductive CharEdit : List Char → List Char → Prop
  | insert (before : List Char) (c : Char) (after : List Char) :
      CharEdit (before ++ after) (before ++ c :: after)
  | delete (before : List Char) (c : Char) (after : List Char) :
      CharEdit (before ++ c :: after) (before ++ after)
  | exchange (before : List Char) (c d : Char) (after : List Char) :
      CharEdit (before ++ c :: after) (before ++ d :: after)

/-- A number of edits, one after the other. -/
inductive CharEdits : Nat → List Char → List Char → Prop
  | none (xs : List Char) : CharEdits 0 xs xs
  | step {n : Nat} {xs ys zs : List Char} (first : CharEdit xs ys) (rest : CharEdits n ys zs) :
      CharEdits (n + 1) xs zs

theorem CharEdit.symm (h : CharEdit xs ys) : CharEdit ys xs := by
  cases h with
  | insert before c after => exact .delete before c after
  | delete before c after => exact .insert before c after
  | exchange before c d after => exact .exchange before d c after

/-- The same edit behind one more character. -/
theorem CharEdit.cons (h : CharEdit xs ys) (c : Char) : CharEdit (c :: xs) (c :: ys) := by
  cases h with
  | insert before d after => exact .insert (c :: before) d after
  | delete before d after => exact .delete (c :: before) d after
  | exchange before d e after => exact .exchange (c :: before) d e after

namespace CharEdits

variable {m n : Nat} {xs ys zs : List Char}

theorem cons (h : CharEdits n xs ys) (c : Char) : CharEdits n (c :: xs) (c :: ys) := by
  induction h with
  | none xs => exact .none (c :: xs)
  | step first _ ih => exact .step (first.cons c) ih

theorem trans (h : CharEdits m xs ys) (h' : CharEdits n ys zs) : CharEdits (m + n) xs zs := by
  induction h with
  | none xs => rwa [Nat.zero_add]
  | step first _ ih =>
    rw [Nat.add_right_comm]
    exact .step first (ih h')

theorem symm (h : CharEdits n xs ys) : CharEdits n ys xs := by
  induction h with
  | none xs => exact .none xs
  | step first _ ih => exact ih.trans (.step first.symm (.none _))

theorem zero_iff : CharEdits 0 xs ys ↔ xs = ys := by
  constructor
  · intro h
    cases h
    rfl
  · rintro rfl
    exact .none xs

end CharEdits

/-! ## Alignments -/

/-- Two texts read side by side, with the number of places where they differ. -/
inductive Aligned : Nat → List Char → List Char → Prop
  | nil : Aligned 0 [] []
  | same {n : Nat} {xs ys : List Char} (c : Char) (h : Aligned n xs ys) :
      Aligned n (c :: xs) (c :: ys)
  | exchange {n : Nat} {xs ys : List Char} (c d : Char) (h : Aligned n xs ys) :
      Aligned (n + 1) (c :: xs) (d :: ys)
  | insert {n : Nat} {xs ys : List Char} (d : Char) (h : Aligned n xs ys) :
      Aligned (n + 1) xs (d :: ys)
  | delete {n : Nat} {xs ys : List Char} (c : Char) (h : Aligned n xs ys) :
      Aligned (n + 1) (c :: xs) ys

namespace Aligned

variable {m n : Nat} {xs ys zs xs' ys' : List Char}

theorem refl (xs : List Char) : Aligned 0 xs xs := by
  induction xs with
  | nil => exact .nil
  | cons c xs ih => exact .same c ih

theorem append (h : Aligned m xs ys) (h' : Aligned n xs' ys') :
    Aligned (m + n) (xs ++ xs') (ys ++ ys') := by
  induction h with
  | nil => rwa [Nat.zero_add]
  | same c _ ih => exact .same c ih
  | exchange c d _ ih => exact Nat.add_right_comm _ n 1 ▸ .exchange c d ih
  | insert d _ ih => exact Nat.add_right_comm _ n 1 ▸ .insert d ih
  | delete c _ ih => exact Nat.add_right_comm _ n 1 ▸ .delete c ih

theorem reverse (h : Aligned n xs ys) : Aligned n xs.reverse ys.reverse := by
  induction h with
  | nil => exact .nil
  | same c _ ih =>
    rw [reverse_cons, reverse_cons]
    exact ih.append (.same c .nil)
  | exchange c d _ ih =>
    rw [reverse_cons, reverse_cons]
    exact ih.append (.exchange c d .nil)
  | insert d _ ih =>
    have last := ih.append (.insert d .nil)
    rwa [append_nil, ← reverse_cons] at last
  | delete c _ ih =>
    have last := ih.append (.delete c .nil)
    rwa [append_nil, ← reverse_cons] at last

/-- Any two texts, place by place from the start. -/
theorem byPlace (xs ys : List Char) : Aligned (max xs.length ys.length) xs ys := by
  induction xs generalizing ys with
  | nil =>
    induction ys with
    | nil => exact .nil
    | cons d ys ih =>
      exact .insert d ih
  | cons c xs ih =>
    cases ys with
    | nil =>
      have rest := ih []
      rw [length_nil, Nat.max_zero] at rest ⊢
      exact .delete c rest
    | cons d ys =>
      rw [length_cons, length_cons, Nat.add_max_add_right]
      exact .exchange c d (ih ys)

theorem length_le (h : Aligned n xs ys) :
    ys.length ≤ xs.length + n ∧ xs.length ≤ ys.length + n := by
  induction h with
  | nil => exact ⟨Nat.le_refl _, Nat.le_refl _⟩
  | same | exchange | insert | delete =>
    simp only [length_cons]
    omega

theorem min (h : Aligned m xs ys) (h' : Aligned n xs ys) : Aligned (Min.min m n) xs ys := by
  rw [Nat.min_def]
  split
  · exact h
  · exact h'

/-- A cut in one text cuts the other text as well. -/
theorem exists_cut (h : Aligned n (xs ++ xs') zs) :
    ∃ k k' ys ys', n = k + k' ∧ zs = ys ++ ys' ∧ Aligned k xs ys ∧ Aligned k' xs' ys' := by
  generalize e : xs ++ xs' = whole at h
  induction h generalizing xs with
  | nil =>
    obtain ⟨rfl, rfl⟩ := append_eq_nil_iff.1 e
    exact ⟨0, 0, [], [], rfl, rfl, .nil, .nil⟩
  | insert d _ ih =>
    obtain ⟨k, k', ys, ys', rfl, rfl, front, back⟩ := ih e
    exact ⟨k + 1, k', d :: ys, ys', Nat.add_right_comm k k' 1, rfl, .insert d front, back⟩
  | same c h ih =>
    rcases append_eq_cons_iff.1 e with ⟨rfl, rfl⟩ | ⟨xs, rfl, rfl⟩
    · exact ⟨0, _, [], _, (Nat.zero_add _).symm, rfl, .nil, .same c h⟩
    · obtain ⟨k, k', ys, ys', rfl, rfl, front, back⟩ := ih rfl
      exact ⟨k, k', c :: ys, ys', rfl, rfl, .same c front, back⟩
  | exchange c d h ih =>
    rcases append_eq_cons_iff.1 e with ⟨rfl, rfl⟩ | ⟨xs, rfl, rfl⟩
    · exact ⟨0, _, [], _, (Nat.zero_add _).symm, rfl, .nil, .exchange c d h⟩
    · obtain ⟨k, k', ys, ys', rfl, rfl, front, back⟩ := ih rfl
      exact ⟨k + 1, k', d :: ys, ys', Nat.add_right_comm k k' 1, rfl, .exchange c d front, back⟩
  | delete c h ih =>
    rcases append_eq_cons_iff.1 e with ⟨rfl, rfl⟩ | ⟨xs, rfl, rfl⟩
    · exact ⟨0, _, [], _, (Nat.zero_add _).symm, rfl, .nil, .delete c h⟩
    · obtain ⟨k, k', ys, ys', rfl, rfl, front, back⟩ := ih rfl
      exact ⟨k + 1, k', ys, ys', Nat.add_right_comm k k' 1, rfl, .delete c front, back⟩

/-- An alignment, carried out edit by edit from the first place on. -/
theorem edits (h : Aligned n xs ys) : CharEdits n xs ys := by
  induction h with
  | nil => exact .none []
  | same c _ ih => exact ih.cons c
  | @exchange n xs ys c d _ ih => exact .step (.exchange [] c d xs) (ih.cons d)
  | @insert n xs ys d _ ih => exact .step (.insert [] d xs) (ih.cons d)
  | @delete n xs ys c _ ih => exact .step (.delete [] c xs) ih

end Aligned

/-- An edit writes one character at most in the place of one at most. -/
theorem CharEdit.exists_place (h : CharEdit xs ys) :
    ∃ before old new after, xs = before ++ (old ++ after) ∧ ys = before ++ (new ++ after) ∧
      old.length ≤ 1 ∧ new.length ≤ 1 := by
  cases h with
  | insert before c after => exact ⟨before, [], [c], after, rfl, rfl, by simp, by simp⟩
  | delete before c after => exact ⟨before, [c], [], after, rfl, rfl, by simp, by simp⟩
  | exchange before c d after => exact ⟨before, [c], [d], after, rfl, rfl, by simp, by simp⟩

/-- An edit before an alignment makes one place more at most: what was read against the character
that the edit wrote is read against the one that it found. -/
theorem CharEdit.aligned_trans {zs : List Char} (edit : CharEdit xs ys) (h : Aligned n ys zs) :
    ∃ k, k ≤ n + 1 ∧ Aligned k xs zs := by
  obtain ⟨before, old, new, after, rfl, rfl, hold, hnew⟩ := edit.exists_place
  obtain ⟨i, j, us, vs, rfl, rfl, front, rest⟩ := h.exists_cut
  obtain ⟨j, k, ws, vs, rfl, rfl, place, back⟩ := rest.exists_cut
  have short := place.length_le.1
  refine ⟨i + (max old.length ws.length + k), by omega, ?_⟩
  exact front.append ((Aligned.byPlace old ws).append back)

/-- Edits, merged to an alignment. -/
theorem CharEdits.aligned (h : CharEdits n xs ys) : ∃ k, k ≤ n ∧ Aligned k xs ys := by
  induction h with
  | none xs => exact ⟨0, Nat.le_refl 0, .refl xs⟩
  | step first _ ih =>
    obtain ⟨k, hk, rest⟩ := ih
    obtain ⟨k', hk', whole⟩ := first.aligned_trans rest
    exact ⟨k', by omega, whole⟩

/-! ## Least numbers -/

section

variable {d : Nat} {xs ys : List Char}

/-- The least number of places where two texts differ when read side by side. -/
def Distant (d : Nat) (xs ys : List Char) : Prop :=
  IsLeast {n | Aligned n xs ys} d

theorem Distant.isLeast_edits (h : Distant d xs ys) : IsLeast {n | CharEdits n xs ys} d := by
  refine ⟨h.1.edits, fun n edits => ?_⟩
  obtain ⟨k, hk, aligned⟩ := edits.aligned
  exact Nat.le_trans (h.2 aligned) hk

theorem Distant.of_reverse (h : Distant d xs.reverse ys.reverse) : Distant d xs ys := by
  refine ⟨?_, fun n aligned => h.2 aligned.reverse⟩
  have back := h.1.reverse
  rwa [reverse_reverse, reverse_reverse] at back

theorem distant_nil_left (ys : List Char) : Distant ys.length [] ys := by
  have inserted := Aligned.byPlace [] ys
  refine ⟨inserted, fun n aligned => ?_⟩
  simpa using aligned.length_le.1

theorem distant_nil_right (xs : List Char) : Distant xs.length xs [] := by
  have deleted := Aligned.byPlace xs []
  rw [length_nil, Nat.max_zero] at deleted
  refine ⟨deleted, fun n aligned => ?_⟩
  simpa using aligned.length_le.2

/-- The recurrence: the first place holds a character of one text alone, or one of both. -/
theorem distant_cons_cons {above left corner : Nat} (a b : Char)
    (habove : Distant above xs (b :: ys)) (hleft : Distant left (a :: xs) ys)
    (hcorner : Distant corner xs ys) :
    Distant (min (min (above + 1) (left + 1)) (corner + if a == b then 0 else 1))
      (a :: xs) (b :: ys) := by
  constructor
  · have both : Aligned (corner + if a == b then 0 else 1) (a :: xs) (b :: ys) := by
      split
      · next h =>
        rw [eq_of_beq h]
        exact .same b hcorner.1
      · exact .exchange a b hcorner.1
    exact ((Aligned.delete a habove.1).min (.insert b hleft.1)).min both
  · intro n aligned
    cases aligned with
    | same c h =>
      have := hcorner.2 h
      simp only [beq_self_eq_true, if_true]
      omega
    | exchange c d h =>
      have := hcorner.2 h
      split <;> omega
    | insert d h =>
      have := hleft.2 h
      omega
    | delete c h =>
      have := habove.2 h
      omega

end

/-! ## Rows -/

/-- The entries of a row: how far `as` is from `seen` and from the texts that continue it with
beginnings of `bs`. The texts before the entry are written backwards, the last character first. -/
inductive Row (as : List Char) : (seen bs : List Char) → List Nat → Prop
  | last {seen : List Char} {n : Nat} (h : Distant n as seen) : Row as seen [] [n]
  | cons {seen bs : List Char} {b : Char} {n : Nat} {row : List Nat} (h : Distant n as seen)
      (rest : Row as (b :: seen) bs row) : Row as seen (b :: bs) (n :: row)

theorem Row.first (h : Row as seen bs (n :: row)) : Distant n as seen := by
  cases h with
  | last h => exact h
  | cons h _ => exact h

/-- The last entry is that of the whole text. -/
theorem Row.getLastD (h : Row as seen bs row) :
    Distant (row.getLastD 0) as (bs.reverse ++ seen) := by
  induction h with
  | last h => exact h
  | @cons seen bs b n row h rest ih =>
    have further : (n :: row).getLastD 0 = row.getLastD 0 := by cases rest <;> rfl
    rwa [further, reverse_cons, append_assoc]

/-- The row before the first character. -/
theorem row_range (seen bs : List Char) :
    Row [] seen bs (List.range' seen.length (bs.length + 1)) := by
  induction bs generalizing seen with
  | nil => exact .last (distant_nil_left seen)
  | cons b bs ih =>
    exact .cons (distant_nil_left seen) (ih (b :: seen))

/-- One more character of the first text. -/
theorem Row.nextEntries {a : Char} {left corner : Nat} (h : Row as seen bs (corner :: row))
    (hleft : Distant left (a :: as) seen) :
    Row (a :: as) seen bs (left :: ModCheck.nextEntries a left corner bs row) := by
  induction bs generalizing seen left corner row with
  | nil => exact .last hleft
  | cons b bs ih =>
    cases h with
    | cons hcorner rest =>
      cases row with
      | nil => nomatch rest
      | cons above row =>
        exact .cons hleft (ih rest (distant_cons_cons a b rest.first hleft hcorner))

theorem Row.nextRow (h : Row as [] bs row) (a : Char) :
    Row (a :: as) [] bs (ModCheck.nextRow a bs row) := by
  cases row with
  | nil => nomatch h
  | cons first row =>
    have empty : first = as.length := h.first.unique (distant_nil_right as)
    have below : Distant (first + 1) (a :: as) [] := by
      rw [empty]
      exact distant_nil_right (a :: as)
    exact h.nextEntries below

theorem Row.foldl (h : Row seen [] bs row) (as : List Char) :
    Row (as.reverse ++ seen) [] bs (as.foldl (fun row a => ModCheck.nextRow a bs row) row) := by
  induction as generalizing seen row with
  | nil => exact h
  | cons a as ih =>
    rw [reverse_cons, append_assoc]
    exact ih (h.nextRow a)

theorem distant_distanceRow (as bs : List Char) :
    Distant ((distanceRow as bs).getLastD 0) as bs := by
  have start : Row [] [] bs (List.range (bs.length + 1)) := by
    rw [range_eq_range']
    exact row_range [] bs
  have final := (start.foldl as).getLastD
  rw [append_nil, append_nil] at final
  exact final.of_reverse

/-! ## The distance -/

theorem isLeast_editDistance (a b : String) :
    IsLeast {n | CharEdits n (lowerChars a.toList) (lowerChars b.toList)} (editDistance a b) :=
  (distant_distanceRow _ _).isLeast_edits

/-- The edit distance is the least number of edits that turn one text into the other, in lower
case; so it is a metric on texts in lower case. -/
theorem editDistance_metric (a b : String) :
    IsLeast {n | CharEdits n (lowerChars a.toList) (lowerChars b.toList)} (editDistance a b) ∧
    editDistance a b = editDistance b a ∧
    (editDistance a b = 0 ↔ lowerChars a.toList = lowerChars b.toList) ∧
    ∀ c, editDistance a c ≤ editDistance a b + editDistance b c := by
  have least := isLeast_editDistance
  refine ⟨least a b, ?_, ?_, ?_⟩
  · exact Nat.le_antisymm ((least a b).2 (least b a).1.symm) ((least b a).2 (least a b).1.symm)
  · rw [← CharEdits.zero_iff]
    constructor
    · intro zero
      rw [← zero]
      exact (least a b).1
    · intro none
      exact Nat.le_zero.1 ((least a b).2 none)
  · intro c
    exact (least a c).2 ((least a b).1.trans (least b c).1)

end ModCheck
