import Mathlib.Data.List.Pairwise
import ModCheck.Correction.Apply
import ModCheck.Proofs.Address

/-
  Edits that keep apart. Edits of which no two collide are all accepted
  (`foldl_add_of_apart`), and if only equal ones do, what is left out is made all the same
  (`Plan.KeepsAll.foldl_add`). If accepted edits come in the order of the text, making them from
  the end backwards is the same as copying the text once and putting each replacement in on the
  way (`run_eq_substitute`). So edits in the order of the text with something between each two are
  all made (`applyAll_ascending`).
-/

namespace ModCheck

open List

variable {e : Edit} {es : List Edit} {plan : Plan} {text : List Char}

/-! ## Finding the characters -/

theorem exists_mapM_eq_ok {α β ε : Type} {f : α → Except ε β} {l : List α}
    (h : ∀ a ∈ l, ∃ b, f a = .ok b) :
    ∃ bs, l.mapM f = .ok bs ∧ ∀ b ∈ bs, ∃ a ∈ l, f a = .ok b := by
  induction l with
  | nil => exact ⟨[], rfl, by simp⟩
  | cons a l ih =>
    obtain ⟨b, hb⟩ := h a mem_cons_self
    obtain ⟨bs, hbs, origin⟩ := ih fun a' ha' => h a' (mem_cons_of_mem _ ha')
    refine ⟨b :: bs, ?_, ?_⟩
    · rw [mapM_cons, hb, hbs]
      rfl
    · intro b' hb'
      rcases mem_cons.1 hb' with rfl | hb'
      · exact ⟨a, mem_cons_self, hb⟩
      · obtain ⟨a', ha', e⟩ := origin b' hb'
        exact ⟨a', mem_cons_of_mem _ ha', e⟩

theorem isOrdered_iff {c : Correction} : c.isOrdered = true ↔ c.span.start ≤ c.span.stop := by
  simp [Correction.isOrdered, Position.le_iff]

theorem Edit.locate_eq_ok {c : Correction} {start stop : Nat} (ho : c.isOrdered = true)
    (hstart : c.span.start.index? text = some start) (hstop : c.span.stop.index? text = some stop) :
    Edit.locate text c = .ok ⟨start, stop, c⟩ := by
  rw [Edit.locate, if_pos ho, hstart]
  rw [hstop]

theorem mapM_locate (h : ∀ e ∈ es, Edit.locate text e.correction = .ok e) :
    (es.map (·.correction)).mapM (Edit.locate text) = .ok es := by
  induction es with
  | nil => rfl
  | cons e es ih =>
    obtain ⟨first, rest⟩ := forall_mem_cons.1 h
    rw [map_cons, mapM_cons, first, ih rest]
    rfl

/-! ## Which edits are accepted -/

theorem foldl_add_of_apart (h : ∀ a ∈ plan.accepted, ∀ b ∈ es, a.conflicts b = false)
    (apart : es.Pairwise fun a b => a.conflicts b = false) :
    es.foldl Plan.add plan = ⟨plan.accepted ++ es, plan.skipped⟩ := by
  induction es generalizing plan with
  | nil => simp
  | cons e es ih =>
    obtain ⟨he, apart⟩ := pairwise_cons.1 apart
    have hadd : plan.add e = ⟨plan.accepted ++ [e], plan.skipped⟩ := by
      rw [Plan.add, if_neg]
      simp only [any_eq_true, not_exists, not_and, Bool.not_eq_true]
      exact fun a ha => h a ha e mem_cons_self
    rw [foldl_cons, hadd, ih ?_ apart]
    · simp
    · intro a ha b hb
      rcases mem_append.1 ha with ha | ha
      · exact h a ha b (mem_cons_of_mem _ hb)
      · rw [mem_singleton.1 ha]
        exact he b hb

/-- Edits collide when they have the same place or each starts before the other ends. -/
theorem Edit.conflicts_eq_true {a b : Edit} (hb : b.start ≤ b.stop) :
    a.conflicts b = true ↔
      (a.start = b.start ∧ a.stop = b.stop) ∨ (a.start < b.stop ∧ b.start < a.stop) := by
  unfold Edit.conflicts
  by_cases hea : a.start = a.stop <;> by_cases heb : b.start = b.stop
  · simp only [hea, heb, BEq.rfl, beq_iff_eq]
    omega
  · simp only [hea, beq_self_eq_true, beq_eq_false_iff_ne.2 heb, Bool.and_eq_true,
      decide_eq_true_eq]
    omega
  · simp only [beq_eq_false_iff_ne.2 hea, heb, beq_self_eq_true, Bool.and_eq_true,
      decide_eq_true_eq]
    omega
  · simp only [beq_eq_false_iff_ne.2 hea, beq_eq_false_iff_ne.2 heb, Bool.and_eq_true,
      decide_eq_true_eq]
    omega

/-- An edit that ends before another starts does not collide with it, unless both are insertions
at one place. -/
theorem Edit.conflicts_eq_false {a b : Edit} (hb : b.start ≤ b.stop)
    (h : a.stop ≤ b.start ∧ a.start < b.stop ∨ b.stop ≤ a.start ∧ b.start < a.stop) :
    a.conflicts b = false := by
  rw [← Bool.not_eq_true, Edit.conflicts_eq_true hb]
  omega

/-- Whatever is left out is a correction that is made. -/
def Plan.KeepsAll (plan : Plan) : Prop :=
  ∀ c ∈ plan.skipped, ∃ e ∈ plan.accepted, e.correction = c

theorem Plan.KeepsAll.add (h : plan.KeepsAll)
    (agree : ∀ a ∈ plan.accepted, a.conflicts e = true → a.correction = e.correction) :
    (plan.add e).KeepsAll := by
  intro c hc
  unfold Plan.add at hc ⊢
  split at hc
  · next hany =>
    rw [if_pos hany]
    rcases mem_append.1 hc with hc | hc
    · exact h c hc
    · obtain ⟨a, ha, hconflict⟩ := any_eq_true.1 hany
      rw [mem_singleton.1 hc]
      exact ⟨a, ha, agree a ha hconflict⟩
  · next hany =>
    rw [if_neg hany]
    obtain ⟨a, ha, e⟩ := h c hc
    exact ⟨a, mem_append_left _ ha, e⟩

theorem Plan.mem_accepted_add {a : Edit} (h : a ∈ (plan.add e).accepted) :
    a ∈ plan.accepted ∨ a = e := by
  unfold Plan.add at h
  split at h
  · exact Or.inl h
  · simpa using h

/-- Edits that collide only with their like are all made, once each. -/
theorem Plan.KeepsAll.foldl_add (h : plan.KeepsAll)
    (agree : ∀ a, a ∈ plan.accepted ∨ a ∈ es → ∀ b ∈ es,
      a.conflicts b = true → a.correction = b.correction) :
    (es.foldl Plan.add plan).KeepsAll := by
  induction es generalizing plan with
  | nil => exact h
  | cons e es ih =>
    apply ih (h.add fun a ha => agree a (Or.inl ha) e mem_cons_self)
    intro a ha b hb
    apply agree a _ b (mem_cons_of_mem _ hb)
    rcases ha with ha | ha
    · rcases mem_accepted_add ha with ha | rfl
      · exact Or.inl ha
      · exact Or.inr mem_cons_self
    · exact Or.inr (mem_cons_of_mem _ ha)

/-! ## Making the edits -/

/-- The text from character `i` on with edits made, which come in the order of the text. -/
def substitute (i : Nat) : List Edit → List Char → List Char
  | [], text => text
  | e :: es, text =>
    text.take (e.start - i) ++ e.correction.replacement.toList ++
      substitute e.stop es (text.drop (e.stop - i))

/-- What stands before all edits is copied. -/
theorem substitute_append (copied text : List Char) (i : Nat) (es : List Edit)
    (h : ∀ e, es.head? = some e → i + copied.length ≤ e.start ∧ e.start ≤ e.stop) :
    substitute i es (copied ++ text) = copied ++ substitute (i + copied.length) es text := by
  cases es with
  | nil => rfl
  | cons e es =>
    obtain ⟨h, h'⟩ := h e rfl
    have hstart : e.start - i = copied.length + (e.start - (i + copied.length)) := by omega
    have hstop : e.stop - i = copied.length + (e.stop - (i + copied.length)) := by omega
    rw [substitute, substitute, hstart, hstop, take_length_add_append]
    simp

/-- The first edit replaces `old`. -/
theorem substitute_cons {i : Nat} {copied old : List Char} (hstart : e.start = i + copied.length)
    (hstop : e.stop = e.start + old.length) (es : List Edit) (text : List Char) :
    substitute i (e :: es) (copied ++ (old ++ text)) =
      copied ++ (e.correction.replacement.toList ++ substitute e.stop es text) := by
  have hi : e.start - i = copied.length := by omega
  have hj : e.stop - i = (copied ++ old).length := by
    rw [length_append]
    omega
  rw [substitute, hi, hj, take_left, ← append_assoc copied old, drop_left, append_assoc]

/-- Edits in the order of a text, each ending before the next starts and within the text. -/
structure InOrder (text : List Char) (es : List Edit) : Prop where
  ordered : ∀ e ∈ es, e.start ≤ e.stop ∧ e.stop ≤ text.length
  ascending : es.Pairwise fun a b => a.stop ≤ b.start

theorem InOrder.tail (h : InOrder text (e :: es)) : InOrder text es :=
  ⟨fun a ha => h.ordered a (mem_cons_of_mem _ ha), (pairwise_cons.1 h.ascending).2⟩

/-- Making edits backwards leaves what stands before them. -/
theorem foldr_splice (h : InOrder text es) {i : Nat} (hi : i ≤ text.length)
    (first : ∀ e ∈ es, i ≤ e.start) :
    es.foldr (fun e t => e.splice t) text = text.take i ++ substitute i es (text.drop i) := by
  induction es generalizing i with
  | nil => exact (take_append_drop i text).symm
  | cons e es ih =>
    obtain ⟨horder, hlength⟩ := h.ordered e mem_cons_self
    have hfirst := first e mem_cons_self
    have rest := ih h.tail hlength (pairwise_cons.1 h.ascending).1
    have htake : (text.take e.stop ++ substitute e.stop es (text.drop e.stop)).take e.start =
        text.take e.start := by
      rw [take_append_of_le_length (by rw [length_take]; omega), take_take, Nat.min_eq_left horder]
    have hdrop : (text.take e.stop ++ substitute e.stop es (text.drop e.stop)).drop e.stop =
        substitute e.stop es (text.drop e.stop) := by
      apply drop_left'
      rw [length_take]
      omega
    have hsplit : text.take e.start = text.take i ++ (text.drop i).take (e.start - i) := by
      rw [← take_add, Nat.add_sub_cancel' hfirst]
    rw [foldr_cons, rest, Edit.splice, htake, hdrop, substitute, hsplit, drop_drop,
      Nat.add_sub_cancel' (Nat.le_trans hfirst horder)]
    simp

theorem Edit.isLater_iff {a b : Edit} :
    a.isLater b = true ↔ b.start < a.start ∨ a.start = b.start ∧ b.stop ≤ a.stop := by
  simp [Edit.isLater]

theorem Edit.isLater_trans (a b c : Edit) (hab : a.isLater b = true) (hbc : b.isLater c = true) :
    a.isLater c = true := by
  rw [Edit.isLater_iff] at hab hbc ⊢
  omega

theorem Edit.isLater_total (a b : Edit) : (a.isLater b || b.isLater a) = true := by
  rw [Bool.or_eq_true, Edit.isLater_iff, Edit.isLater_iff]
  omega

/-- Edits in order, no two in the same place, are made from the last to the first. -/
theorem mergeSort_isLater (h : InOrder text es)
    (distinct : es.Pairwise fun a b => a.start = b.start → a.stop ≠ b.stop) :
    es.mergeSort Edit.isLater = es.reverse := by
  have sorted : es.reverse.Pairwise fun a b => a.isLater b = true := by
    rw [pairwise_reverse]
    refine h.ascending.imp_of_mem fun {a b} ha hb hab => ?_
    have := h.ordered a ha
    have := h.ordered b hb
    rw [Edit.isLater_iff]
    omega
  have perm : (es.mergeSort Edit.isLater).Perm es.reverse :=
    (mergeSort_perm es _).trans (reverse_perm es).symm
  -- two edits that are each later than the other have the same place, so they are one
  refine perm.eq_of_pairwise ?_ (pairwise_mergeSort Edit.isLater_trans Edit.isLater_total es)
    sorted
  intro a b ha hb hab hba
  have hplace : a.start = b.start ∧ a.stop = b.stop := by
    rw [Edit.isLater_iff] at hab hba
    omega
  by_contra hne
  have symm : Std.Symm fun x y : Edit => x.start = y.start → x.stop ≠ y.stop :=
    ⟨fun x y h e e' => h e.symm e'.symm⟩
  exact distinct.forall ((mergeSort_perm es _).subset ha) (mem_reverse.1 hb) hne
    hplace.1 hplace.2

/-- Edits in order are made as in one pass over the text. -/
theorem run_eq_substitute (h : InOrder text plan.accepted)
    (distinct : plan.accepted.Pairwise fun a b => a.start = b.start → a.stop ≠ b.stop) :
    plan.run text = substitute 0 plan.accepted text := by
  rw [Plan.run, mergeSort_isLater h distinct, foldl_reverse]
  exact foldr_splice h (Nat.zero_le _) fun e _ => Nat.zero_le _

/-- Corrections in the order of the text, with something between each two, are all made. -/
theorem applyAll_ascending {source : String} {cs : List Correction}
    (located : cs.mapM (Edit.locate source.toList) = .ok es)
    (bounds : ∀ e ∈ es, e.start ≤ e.stop ∧ e.stop ≤ source.toList.length)
    (apart : es.Pairwise fun a b => a.stop < b.start) :
    Correction.applyAll source cs =
      .ok ⟨String.ofList (substitute 0 es source.toList), es.length, []⟩ := by
  have alone : es.Pairwise fun a b => a.conflicts b = false := by
    refine apart.imp_of_mem fun {a b} ha hb hab => ?_
    have ha := (bounds a ha).1
    have hb := (bounds b hb).1
    exact Edit.conflicts_eq_false hb (by omega)
  have plan : es.foldl Plan.add {} = ⟨es, []⟩ := foldl_add_of_apart (by simp) alone
  have order : InOrder source.toList es := ⟨bounds, apart.imp fun hab => Nat.le_of_lt hab⟩
  have run : Plan.run ⟨es, []⟩ source.toList = substitute 0 es source.toList := by
    apply run_eq_substitute order
    refine apart.imp_of_mem fun {a b} ha hb hab => ?_
    have := bounds b hb
    omega
  simp only [Correction.applyAll, located, plan, run]

end ModCheck
