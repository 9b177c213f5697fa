import Mathlib.Data.List.Infix
import ModCheck.Suggestion

/-
  Suggestions under two limits. Sorting by distance keeps equally close names in their order, so the
  sorted names within a smaller limit stand in front of those within a larger one, and what is
  suggested under the smaller limit is the beginning of what is suggested under the larger
  (`suggest_initial`). The best name therefore stays the best (`bestName_mono`).
-/

namespace ModCheck

open List

/-! ## Sorting by a number -/

section

variable {α : Type} (key : α → Nat)

theorem keyLe_trans (a b c : α) (hab : decide (key a ≤ key b) = true)
    (hbc : decide (key b ≤ key c) = true) : decide (key a ≤ key c) = true := by
  simp only [decide_eq_true_eq] at *
  omega

theorem keyLe_total (a b : α) : (decide (key a ≤ key b) || decide (key b ≤ key a)) = true := by
  simp only [Bool.or_eq_true, decide_eq_true_eq]
  omega

theorem pairwise_mergeSort_key (xs : List α) :
    (xs.mergeSort fun a b => key a ≤ key b).Pairwise fun a b => key a ≤ key b :=
  (pairwise_mergeSort (keyLe_trans key) (keyLe_total key) xs).imp of_decide_eq_true

/-- Items with the same number keep their order. -/
theorem filter_eq_mergeSort (xs : List α) (n : Nat) :
    (xs.mergeSort fun a b => key a ≤ key b).filter (key · == n) = xs.filter (key · == n) := by
  have equal : (xs.filter (key · == n)).Pairwise fun a b => decide (key a ≤ key b) = true := by
    refine pairwise_of_forall_mem_list fun a ha b hb => ?_
    have hka : key a = n := by simpa using (mem_filter.1 ha).2
    have hkb : key b = n := by simpa using (mem_filter.1 hb).2
    exact decide_eq_true (by omega)
  have kept := sublist_mergeSort (keyLe_trans key) (keyLe_total key) equal
    filter_sublist
  have inside := kept.filter (key · == n)
  simp only [filter_filter, Bool.and_self] at inside
  exact (inside.eq_of_length ((mergeSort_perm xs _).filter _).length_eq.symm).symm

variable {key}

/-- Sorted lists are equal if they have the same items with each number, in the same order. -/
theorem eq_of_filter_eq {xs ys : List α} (hx : xs.Pairwise fun a b => key a ≤ key b)
    (hy : ys.Pairwise fun a b => key a ≤ key b)
    (h : ∀ n, xs.filter (key · == n) = ys.filter (key · == n)) : xs = ys := by
  have first_le {a : α} {as bs : List α} (hb : bs.Pairwise fun a b => key a ≤ key b)
      (e : (a :: as).filter (key · == key a) = bs.filter (key · == key a)) :
      ∀ b ∈ bs.head?, key b ≤ key a := by
    have : a ∈ bs.filter (key · == key a) := by simp [← e]
    cases hb with
    | nil => simp
    | cons first _ =>
      rcases mem_cons.1 (mem_of_mem_filter this) with rfl | mem
      · simp
      · simpa using first a mem
  induction xs generalizing ys with
  | nil =>
    cases ys with
    | nil => rfl
    | cons y ys => simpa using h (key y)
  | cons x xs ih =>
    cases ys with
    | nil => simpa using h (key x)
    | cons y ys =>
      have same : key x = key y :=
        Nat.le_antisymm (first_le hx (h (key y)).symm x rfl) (first_le hy (h (key x)) y rfl)
      have heads := h (key x)
      rw [filter_cons_of_pos (by simp), filter_cons_of_pos (by simp [same])] at heads
      obtain ⟨rfl, tails⟩ := cons_eq_cons.1 heads
      congr 1
      refine ih (pairwise_cons.1 hx).2 (pairwise_cons.1 hy).2 fun n => ?_
      by_cases hn : key x = n
      · rw [← hn, tails]
      · have := h n
        rwa [filter_cons_of_neg (by simpa using hn), filter_cons_of_neg (by simpa using hn)] at this

/-- The items up to a number can be taken out before or after sorting. -/
theorem filter_le_mergeSort (xs : List α) (n : Nat) :
    (xs.mergeSort fun a b => key a ≤ key b).filter (key · ≤ n) =
      (xs.filter (key · ≤ n)).mergeSort fun a b => key a ≤ key b := by
  refine eq_of_filter_eq ((pairwise_mergeSort_key key xs).filter _)
    (pairwise_mergeSort_key key _) fun m => ?_
  calc ((xs.mergeSort fun a b => key a ≤ key b).filter (key · ≤ n)).filter (key · == m)
      = ((xs.mergeSort fun a b => key a ≤ key b).filter (key · == m)).filter (key · ≤ n) := by
        simp only [filter_filter, Bool.and_comm]
    _ = (xs.filter (key · ≤ n)).filter (key · == m) := by
        simp only [filter_eq_mergeSort, filter_filter, Bool.and_comm]
    _ = ((xs.filter (key · ≤ n)).mergeSort fun a b => key a ≤ key b).filter (key · == m) :=
        (filter_eq_mergeSort key _ m).symm

/-- In a sorted list the items up to a number stand in front. -/
theorem filter_le_initial {xs : List α} (h : xs.Pairwise fun a b => key a ≤ key b) (n : Nat) :
    xs.filter (key · ≤ n) <+: xs := by
  induction h with
  | nil => exact prefix_rfl
  | @cons x xs first _ ih =>
    by_cases hx : key x ≤ n
    · rw [filter_cons_of_pos (by simpa using hx)]
      exact (prefix_cons_inj x).2 ih
    · have none : (x :: xs).filter (key · ≤ n) = [] := by
        refine filter_eq_nil_iff.2 fun a ha => ?_
        rcases mem_cons.1 ha with rfl | ha
        · simpa using hx
        · have := first a ha
          simp only [decide_eq_true_eq]
          omega
      rw [none]
      exact nil_prefix

end

/-! ## Suggestions -/

/-- Under a smaller limit the suggestions are the beginning of those under a larger one. -/
theorem suggest_initial {d e : Nat} (h : d ≤ e) (target : String) (names : List String) :
    suggest target names d <+: suggest target names e := by
  unfold suggest
  dsimp only
  have fewer : (names.filterMap fun name => if editDistance target name ≤ d then
        some (Suggestion.mk name (editDistance target name)) else none) =
      (names.filterMap fun name => if editDistance target name ≤ e then
        some (Suggestion.mk name (editDistance target name)) else none).filter
          (Suggestion.distance · ≤ d) := by
    rw [filter_filterMap]
    refine filterMap_congr fun name _ => ?_
    by_cases hd : editDistance target name ≤ d
    · simp [Nat.le_trans hd h, Option.filter]
    · by_cases he : editDistance target name ≤ e <;> simp [hd, he, Option.filter]
  rw [fewer, ← filter_le_mergeSort]
  exact List.IsPrefix.take (filter_le_initial (pairwise_mergeSort_key _ _) d) suggestionLimit

/-- A name that is the best under a limit is the best under every larger one. -/
theorem bestName_mono {d e : Nat} (h : d ≤ e) {target : String} {names : List String}
    {name : String} (best : bestName (suggest target names d) = some name) :
    bestName (suggest target names e) = some name := by
  obtain ⟨first, here, rfl⟩ := Option.map_eq_some_iff.1 best
  obtain ⟨rest, e⟩ := suggest_initial h target names
  rw [bestName, ← e, head?_append, here]
  rfl

end ModCheck
