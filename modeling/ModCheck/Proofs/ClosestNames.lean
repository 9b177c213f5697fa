import Mathlib.Data.List.FinRange
import ModCheck.Proofs.LeastEdits
import ModCheck.Proofs.Suggestions

/-
  The names that are suggested are the closest. A known name may occur more than once, so what is
  ranked are the places of the names: by distance, and by the place itself where the distance is the
  same (`Precedes`). Sorting by distance alone gives this order, since it keeps equally close names
  as they are (`pairwise_mergeSort_of`), and what is left out of a sorted list comes after what is
  taken (`precedes_of_not_mem_take`). Main statement: `suggest_closest`.
-/

namespace ModCheck

open List

/-! ## The beginning of a sorted list -/

section

variable {α : Type} {R : α → α → Prop} {xs : List α}

/-- Sorted by a number, items with different numbers are in the order of the numbers and the others
in the order that they had. -/
theorem pairwise_mergeSort_of (key : α → Nat) (h : xs.Pairwise R) :
    (xs.mergeSort fun a b => key a ≤ key b).Pairwise
      fun a b => key a < key b ∨ key a = key b ∧ R a b := by
  refine pairwise_iff_forall_sublist.2 fun {a b} pair => ?_
  have ordered := pairwise_iff_forall_sublist.1 (pairwise_mergeSort_key key xs) pair
  rcases Nat.lt_or_eq_of_le ordered with less | same
  · exact Or.inl less
  · have kept := pair.filter (key · == key b)
    rw [filter_eq_mergeSort, filter_cons_of_pos (by simpa using same),
      filter_cons_of_pos (by simp)] at kept
    exact Or.inr ⟨same, pairwise_iff_forall_sublist.1 h (kept.trans filter_sublist)⟩

/-- What is left out of a sorted list comes after all that is taken. -/
theorem precedes_of_not_mem_take (h : xs.Pairwise R) {k : Nat} {b : α} (hb : b ∈ xs)
    (out : b ∉ xs.take k) : ∀ a ∈ xs.take k, R a b := by
  rw [← take_append_drop k xs] at h hb
  have later : b ∈ xs.drop k := (mem_append.1 hb).resolve_left out
  exact fun a ha => (pairwise_append.1 h).2.2 a ha b later

end

/-! ## Places of names -/

section

variable (target : String) (names : List String)

/-- How far the name at a place is from the one looked up. -/
def distanceAt (i : Fin names.length) : Nat :=
  editDistance target (names.get i)

/-- The name at a place, as it is suggested. -/
def suggestionAt (i : Fin names.length) : Suggestion :=
  ⟨names.get i, distanceAt target names i⟩

/-- The name at one place is closer than the one at another, or as close and further in front. -/
def Precedes (i j : Fin names.length) : Prop :=
  distanceAt target names i < distanceAt target names j ∨
    distanceAt target names i = distanceAt target names j ∧ i < j

/-- The places of all names within a limit, the closest first. -/
def ranking (limit : Nat) : List (Fin names.length) :=
  ((List.finRange names.length).filter (distanceAt target names · ≤ limit)).mergeSort
    fun i j => distanceAt target names i ≤ distanceAt target names j

variable {target names} {limit : Nat}

theorem mem_ranking {i : Fin names.length} :
    i ∈ ranking target names limit ↔ distanceAt target names i ≤ limit := by
  rw [ranking]
  simp

theorem pairwise_ranking : (ranking target names limit).Pairwise (Precedes target names) :=
  pairwise_mergeSort_of _ ((pairwise_lt_finRange names.length).filter _)

theorem close_eq_map : (names.filterMap fun name => if editDistance target name ≤ limit then
      some (Suggestion.mk name (editDistance target name)) else none) =
    ((List.finRange names.length).filter (distanceAt target names · ≤ limit)).map
      (suggestionAt target names) := by
  conv_lhs => rw [← map_get_finRange names]
  rw [filterMap_map, ← filterMap_eq_map, filterMap_filter]
  refine filterMap_congr fun i _ => ?_
  by_cases h : editDistance target (names.get i) ≤ limit
  · simp only [Function.comp_apply, suggestionAt, distanceAt, h, decide_true]
  · simp only [Function.comp_apply, distanceAt, h, decide_false, if_false, Bool.false_eq_true]

/-- Names are suggested by rank. -/
theorem suggest_eq_map : suggest target names limit =
    ((ranking target names limit).take suggestionLimit).map (suggestionAt target names) := by
  rw [suggest, map_take, ranking, map_mergeSort, ← close_eq_map]
  intro i _ j _
  rfl

end

/-- Places of names that are suggested: at most three, in the order of distance and place, within
the limit, and before every other place within the limit. With fewer than three there is no
other. -/
structure Closest (target : String) (names : List String) (limit : Nat)
    (order : List (Fin names.length)) : Prop where
  few : order.length ≤ 3
  close : ∀ i ∈ order, distanceAt target names i ≤ limit
  ordered : order.Pairwise (Precedes target names)
  first : ∀ j, distanceAt target names j ≤ limit → j ∉ order →
    ∀ i ∈ order, Precedes target names i j
  complete : order.length < 3 → ∀ j, distanceAt target names j ≤ limit → j ∈ order

theorem closest_take (target : String) (names : List String) (limit : Nat) :
    Closest target names limit ((ranking target names limit).take 3) where
  few := length_take_le 3 _
  close i hi := mem_ranking.1 (mem_of_mem_take hi)
  ordered := pairwise_ranking.take
  first j hj out := precedes_of_not_mem_take pairwise_ranking (mem_ranking.2 hj) out
  complete short j hj := by
    rw [length_take] at short
    rw [take_of_length_le (by omega)]
    exact mem_ranking.2 hj

/-- What is suggested are the names at the closest places. The distance is the least number of edits
that turn one name into the other, in lower case. -/
theorem suggest_closest (target : String) (names : List String) (limit : Nat) :
    (∃ order, suggest target names limit = order.map (suggestionAt target names) ∧
      Closest target names limit order) ∧
    ∀ i, IsLeast {n | CharEdits n (Text.lowerChars target.toList)
      (Text.lowerChars (names.get i).toList)} (distanceAt target names i) := by
  refine ⟨⟨_, suggest_eq_map, closest_take target names limit⟩, fun i => ?_⟩
  exact isLeast_editDistance target (names.get i)

end ModCheck
