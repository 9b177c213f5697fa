import Mathlib.Data.List.TakeWhile
import Mathlib.Data.Prod.Lex
import ModCheck.Position.Address

/-
  Places and the characters they address. The place after a text, looked up in a longer text that
  starts with it, is again the end of that text (`index?_after`), unless only carriage returns
  stand around it at the end of a line: those are no part of the line that columns count in
  (`Addressable`). Places are ordered by line and then by column, and every character moves on in
  this order.
-/

namespace ModCheck

open List

variable {cs : List Char}

namespace Position

/-! ## The order of places -/

instance : PartialOrder Position :=
  PartialOrder.lift (fun p => toLex (p.line, p.column)) fun p q h => by
    cases p
    cases q
    simpa using h

theorem lt_iff {p q : Position} :
    p < q ↔ p.line < q.line ∨ p.line = q.line ∧ p.column < q.column :=
  Prod.Lex.toLex_lt_toLex

theorem le_iff {p q : Position} :
    p ≤ q ↔ p.line < q.line ∨ p.line = q.line ∧ p.column ≤ q.column :=
  Prod.Lex.toLex_le_toLex

@[simp] theorem after_nil (p : Position) : p.after [] = p := rfl

@[simp] theorem after_cons (p : Position) (c : Char) (cs : List Char) :
    p.after (c :: cs) = (p.next c).after cs := rfl

theorem after_append (p : Position) (cs ds : List Char) :
    p.after (cs ++ ds) = (p.after cs).after ds := by
  unfold after
  rw [foldl_append]

theorem lt_next (p : Position) (c : Char) : p < p.next c := by
  rw [lt_iff, next]
  split
  · exact Or.inl (Nat.lt_succ_self _)
  · exact Or.inr ⟨rfl, Nat.lt_succ_self _⟩

theorem le_after (p : Position) (cs : List Char) : p ≤ p.after cs := by
  induction cs generalizing p with
  | nil => exact le_refl p
  | cons c cs ih => exact (lt_next p c).le.trans (ih (p.next c))

theorem lt_after (p : Position) (h : cs ≠ []) : p < p.after cs := by
  cases cs with
  | nil => exact absurd rfl h
  | cons c cs => exact (lt_next p c).trans_le (le_after _ cs)

theorem after_take_le {i j : Nat} (p : Position) (cs : List Char) (h : i ≤ j) :
    p.after (cs.take i) ≤ p.after (cs.take j) := by
  have e : cs.take j = cs.take i ++ (cs.drop i).take (j - i) := by
    rw [← take_add, Nat.add_sub_cancel' h]
  rw [e, after_append]
  exact le_after _ _

theorem after_take_lt {i j : Nat} (p : Position) (cs : List Char) (h : i < j)
    (hi : i < cs.length) : p.after (cs.take i) < p.after (cs.take j) := by
  have e : p.after (cs.take (i + 1)) = (p.after (cs.take i)).next cs[i] := by
    rw [← take_append_getElem hi, after_append]
    rfl
  calc p.after (cs.take i) < p.after (cs.take (i + 1)) := by
        rw [e]
        exact lt_next _ _
    _ ≤ p.after (cs.take j) := after_take_le p cs h

/-! ## Places inside a text -/

/-- A text without line feeds stays on its line. -/
theorem after_of_not_mem (p : Position) (h : '\n' ∉ cs) :
    p.after cs = ⟨p.line, p.column + cs.length⟩ := by
  induction cs generalizing p with
  | nil => rfl
  | cons c cs ih =>
    obtain ⟨hc, hcs⟩ := ne_and_not_mem_of_not_mem_cons h
    have e : p.next c = ⟨p.line, p.column + 1⟩ := by
      rw [next, if_neg (by simpa using Ne.symm hc)]
    rw [after_cons, ih (p.next c) hcs, e, length_cons]
    simp only [Position.mk.injEq, true_and]
    omega

theorem after_line (p : Position) (cs : List Char) :
    (p.after cs).line = p.line + cs.count '\n' := by
  induction cs generalizing p with
  | nil => rfl
  | cons c cs ih =>
    rw [after_cons, ih, next, List.count_cons]
    split
    · simp only [Nat.add_right_comm, Nat.add_assoc]
    · rfl

theorem shift_next (origin p : Position) (c : Char) :
    origin.shift (p.next c) = (origin.shift p).next c := by
  unfold shift next
  by_cases hc : c = '\n'
  · simp [hc, Nat.add_assoc]
  · by_cases hp : p.line = 0 <;> simp [hc, hp, Nat.add_assoc]

theorem shift_after (origin p : Position) (cs : List Char) :
    origin.shift (p.after cs) = (origin.shift p).after cs := by
  induction cs generalizing p with
  | nil => rfl
  | cons c cs ih => rw [after_cons, after_cons, ih, shift_next]

/-- The place of a character of a text in the file: where the text before it ends. -/
theorem shift_within (origin : Position) (text : List Char) (i : Nat) :
    origin.shift (within text i) = origin.after (text.take i) := by
  rw [within, shift_after]
  rfl

end Position

theorem CharRange.toSpan_eq {r : CharRange} (h : r.start ≤ r.stop) (text : List Char)
    (origin : Position) :
    r.toSpan text origin = ⟨origin.after (text.take r.start), origin.after (text.take r.stop)⟩ := by
  rw [CharRange.toSpan, Position.shift_within, Position.shift_within, Nat.max_eq_left h]

/-! ## Lines -/

/-- What follows the last line feed. -/
def lineTail : List Char → List Char
  | [] => []
  | c :: cs => if '\n' ∈ c :: cs then lineTail cs else c :: cs

theorem lineTail_of_not_mem (h : '\n' ∉ cs) : lineTail cs = cs := by
  cases cs with
  | nil => rfl
  | cons c cs => rw [lineTail, if_neg h]

theorem not_mem_lineTail (cs : List Char) : '\n' ∉ lineTail cs := by
  induction cs with
  | nil => exact not_mem_nil
  | cons c cs ih =>
    rw [lineTail]
    split
    · exact ih
    · assumption

theorem lineTail_suffix (cs : List Char) : lineTail cs <:+ cs := by
  induction cs with
  | nil => exact suffix_refl _
  | cons c cs ih =>
    rw [lineTail]
    split
    · exact ih.trans (suffix_cons c cs)
    · exact suffix_refl _

/-- The last character of a line is the last of the text that ends in it. -/
theorem getLast?_lineTail {c : Char} (h : (lineTail cs).getLast? = some c) :
    cs.getLast? = some c := by
  obtain ⟨pre, e⟩ := lineTail_suffix cs
  rw [← e, getLast?_append, h]
  rfl

theorem after_column (line : Nat) (cs : List Char) :
    (Position.after ⟨line, 0⟩ cs).column = (lineTail cs).length := by
  have key : ∀ (cs : List Char) (p : Position), '\n' ∈ cs →
      (p.after cs).column = (lineTail cs).length := by
    intro cs
    induction cs with
    | nil => intro p h; exact absurd h not_mem_nil
    | cons c cs ih =>
      intro p h
      rw [Position.after_cons, lineTail, if_pos h]
      by_cases hcs : '\n' ∈ cs
      · exact ih _ hcs
      · have hc : c = '\n' := by
          rcases mem_cons.1 h with e | e
          · exact e.symm
          · exact absurd e hcs
        rw [Position.after_of_not_mem _ hcs, lineTail_of_not_mem hcs, hc]
        simp [Position.next]
  by_cases h : '\n' ∈ cs
  · exact key cs _ h
  · rw [Position.after_of_not_mem _ h, lineTail_of_not_mem h]
    simp

theorem skipLines_succ_cons (n : Nat) (c : Char) (cs : List Char) :
    skipLines (n + 1) (c :: cs) = if c = '\n' then skipLines n cs else skipLines (n + 1) cs := by
  by_cases hc : c = '\n' <;> simp [skipLines, hc]

/-- Skipping the line feeds of a beginning leads to its last line. -/
theorem skipLines_count (pre post : List Char) :
    skipLines (pre.count '\n') (pre ++ post) = some (lineTail pre ++ post) := by
  induction pre with
  | nil => rfl
  | cons c pre ih =>
    by_cases hp : '\n' ∈ pre
    · obtain ⟨n, hn⟩ : ∃ n, pre.count '\n' = n + 1 :=
        Nat.exists_eq_succ_of_ne_zero (Nat.pos_iff_ne_zero.1 (count_pos_iff.2 hp))
      rw [lineTail, if_pos (mem_cons_of_mem _ hp), cons_append]
      by_cases hc : c = '\n'
      · rw [hc, count_cons_self, skipLines_succ_cons, if_pos rfl]
        exact ih
      · rw [count_cons_of_ne hc, hn, skipLines_succ_cons, if_neg hc, ← hn]
        exact ih
    · rw [List.count_cons, count_eq_zero.2 hp] at *
      by_cases hc : c = '\n'
      · rw [lineTail, hc, if_pos mem_cons_self]
        exact ih
      · have h : '\n' ∉ c :: pre := not_mem_cons_of_ne_of_not_mem (Ne.symm hc) hp
        rw [lineTail_of_not_mem h]
        simp [hc, skipLines]

/-! ## Addresses -/

/-- Whether the place between `pre` and `post` has an address: the carriage returns at the end of
a line have none, but the place before them does. -/
def Addressable (pre post : List Char) : Prop :=
  pre.getLast? ≠ some '\r' ∨ ∃ c ∈ post.takeWhile (· != '\n'), c ≠ '\r'

theorem length_le_trimmed {pre post : List Char}
    (h : pre.getLast? ≠ some '\r' ∨ ∃ c ∈ post, c ≠ '\r') :
    pre.length ≤ ((pre ++ post).reverse.dropWhile (· == '\r')).reverse.length := by
  rw [length_reverse, reverse_append, dropWhile_append]
  split
  · next hpost =>
    have hall : ∀ c ∈ post, c = '\r' := by
      simpa using hpost
    rcases h with h | ⟨c, hc, hne⟩
    · rw [← head?_reverse] at h
      cases hr : pre.reverse with
      | nil => simp [reverse_eq_nil_iff.1 hr]
      | cons d ds =>
        rw [hr, head?_cons] at h
        rw [dropWhile_cons_of_neg (by simpa using fun e => h (congrArg some e)), ← hr,
          length_reverse]
    · exact absurd (hall c hc) hne
  · simp

theorem takeWhile_append_of_not_mem (h : '\n' ∉ cs) (ds : List Char) :
    (cs ++ ds).takeWhile (· != '\n') = cs ++ ds.takeWhile (· != '\n') := by
  rw [takeWhile_append_of_pos]
  intro c hc
  simpa using fun e : c = '\n' => h (e ▸ hc)

/-- The place where `pre` ends is found again in a text that starts with `pre`. -/
theorem index?_after {pre post : List Char} (h : Addressable pre post) :
    (Position.after ⟨1, 0⟩ pre).index? (pre ++ post) = some pre.length := by
  have hline := Position.after_line ⟨1, 0⟩ pre
  have hcolumn := after_column 1 pre
  have hfit : (lineTail pre).length ≤ (firstLine (lineTail pre ++ post)).length := by
    rw [firstLine, takeWhile_append_of_not_mem (not_mem_lineTail pre)]
    apply length_le_trimmed
    rcases h with h | h
    · exact Or.inl fun e => h (getLast?_lineTail e)
    · exact Or.inr h
  have hlength : (lineTail pre).length ≤ pre.length := (lineTail_suffix pre).length_le
  rw [Position.index?, if_neg (by simp [hline]), hline, hcolumn]
  simp only [Nat.add_sub_cancel_left, skipLines_count, hfit, if_true, length_append,
    Option.some.injEq]
  omega

@[simp] theorem byteLength_append (cs ds : List Char) :
    byteLength (cs ++ ds) = byteLength cs + byteLength ds := by
  induction cs with
  | nil => simp [byteLength]
  | cons c cs ih => simp [byteLength, ih, Nat.add_assoc]

theorem byteOffset?_after {pre post : List Char} (h : Addressable pre post) :
    (Position.after ⟨1, 0⟩ pre).byteOffset? (pre ++ post) = some (byteLength pre) := by
  rw [Position.byteOffset?, index?_after h, Option.map_some, take_left]

theorem dropBytes_zero (cs : List Char) : dropBytes 0 cs = cs := by
  cases cs <;> rfl

/-- What follows the bytes of a beginning. -/
theorem dropBytes_byteLength (pre post : List Char) :
    dropBytes (byteLength pre) (pre ++ post) = post := by
  induction pre with
  | nil => exact dropBytes_zero post
  | cons c pre ih =>
    have hc : c.utf8Size + byteLength pre ≠ 0 := by
      have := c.utf8Size_pos
      omega
    rw [cons_append, byteLength, dropBytes, if_neg (by simpa using hc), Nat.add_sub_cancel_left, ih]

/-! ## Spots -/

/-- The place `p` is the one after `n` characters of a text, and it has an address there. -/
structure Spot (text : List Char) (p : Position) (n : Nat) : Prop where
  bound : n ≤ text.length
  here : Addressable (text.take n) (text.drop n)
  place : p = Position.after ⟨1, 0⟩ (text.take n)

theorem spot_append {text pre post : List Char} (h : pre ++ post = text)
    (here : Addressable pre post) : Spot text (Position.after ⟨1, 0⟩ pre) pre.length := by
  subst h
  refine ⟨?_, ?_, ?_⟩
  · simp
  · rwa [take_left, drop_left]
  · rw [take_left]

namespace Spot

variable {text : List Char} {p q : Position} {n m : Nat}

theorem index?_eq (h : Spot text p n) : p.index? text = some n := by
  have := index?_after h.here
  rwa [take_append_drop, length_take, Nat.min_eq_left h.bound, ← h.place] at this

theorem byteOffset?_eq (h : Spot text p n) :
    p.byteOffset? text = some (byteLength (text.take n)) := by
  rw [Position.byteOffset?, h.index?_eq]
  rfl

/-- Spots come in the order of their places. -/
theorem le (hp : Spot text p n) (hq : Spot text q m) (h : p ≤ q) : n ≤ m := by
  by_contra hlt
  have hmn := Position.after_take_lt ⟨1, 0⟩ text (Nat.lt_of_not_le hlt)
    (Nat.lt_of_lt_of_le (Nat.lt_of_not_le hlt) hp.bound)
  rw [← hp.place, ← hq.place] at hmn
  exact absurd h hmn.not_ge

theorem lt (hp : Spot text p n) (hq : Spot text q m) (h : p < q) : n < m := by
  by_contra hle
  have hmn := Position.after_take_le ⟨1, 0⟩ text (Nat.le_of_not_lt hle)
  rw [← hp.place, ← hq.place] at hmn
  exact absurd h hmn.not_gt

end Spot

end ModCheck
