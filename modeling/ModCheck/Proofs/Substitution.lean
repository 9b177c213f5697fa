import Mathlib.Data.List.Pairwise
import Mathlib.Data.List.Perm.Basic
import ModCheck.Proofs.Edits

/-
  Applying corrections is substitution in one go. A place that is found in a text is the end of a
  beginning of that text (`spot_of_index?`), so a correction that fits names bytes of the text, in
  order. Which corrections are made is decided from first to last (`foldl_add_eq`), and making the
  accepted ones from the end backwards is the same as walking over the text once and putting in, at
  each byte, what the corrections say there (`run_eq_patched`). That walk does not look at the order
  in which the corrections are listed (`patched_perm`). Main statement: `applyAll_at_once`.
-/

namespace ModCheck

open List

variable {a b : Edit} {c : Correction} {cs : List Correction} {es : List Edit} {n : Nat} {p : Patch}
  {plan : Plan} {ps : List Patch} {text : List Char}

/-! ## Places that are found -/

theorem skipLines_eq_some {k : Nat} {rest : List Char} (h : skipLines k text = some rest) :
    ∃ pre, text = pre ++ rest ∧ pre.getLast? ≠ some '\r' ∧
      ∀ line, Position.after ⟨line, 0⟩ pre = ⟨line + k, 0⟩ := by
  induction k generalizing text with
  | zero =>
    rw [skipLines, Option.some.injEq] at h
    exact ⟨[], by simp [h], by simp, fun line => rfl⟩
  | succ k ih =>
    rw [skipLines] at h
    cases hdrop : text.dropWhile (· != '\n') with
    | nil => simp [hdrop] at h
    | cons c after =>
      rw [hdrop] at h
      obtain ⟨pre, rfl, hlast, hpos⟩ := ih h
      have hc : c = '\n' := by
        have := head?_dropWhile_not (· != '\n') text
        simpa [hdrop] using this
      have hline : '\n' ∉ text.takeWhile (· != '\n') := by
        intro hmem
        simpa using mem_takeWhile_imp hmem
      refine ⟨text.takeWhile (· != '\n') ++ '\n' :: pre, ?_, ?_, ?_⟩
      · subst hc
        rw [append_assoc, cons_append, ← hdrop, takeWhile_append_dropWhile]
      · rw [getLast?_append, getLast?_cons]
        cases hp : pre.getLast? with
        | none => simp
        | some d => simpa [hp] using hlast
      · intro line
        rw [Position.after_append, Position.after_of_not_mem _ hline, Position.after_cons]
        have hnext : Position.next ⟨line, 0 + (text.takeWhile (· != '\n')).length⟩ '\n' =
            ⟨line + 1, 0⟩ := rfl
        rw [hnext, hpos (line + 1), Nat.add_assoc, Nat.add_comm 1 k]

theorem getLast?_firstLine (cs : List Char) : (firstLine cs).getLast? ≠ some '\r' := by
  rw [firstLine, getLast?_reverse]
  intro h
  have := head?_dropWhile_not (· == '\r') (cs.takeWhile (· != '\n')).reverse
  simp [h] at this

/-- A text is its first line, without the carriage returns there, and something more. -/
theorem exists_firstLine_append (cs : List Char) :
    '\n' ∉ firstLine cs ∧ ∃ more, cs = firstLine cs ++ more := by
  have hpre : firstLine cs <+: cs.takeWhile (· != '\n') := by
    rw [firstLine, ← reverse_suffix, reverse_reverse]
    exact dropWhile_suffix _
  constructor
  · intro hmem
    simpa using mem_takeWhile_imp (hpre.subset hmem)
  · obtain ⟨more, hmore⟩ := hpre.trans ( takeWhile_prefix _)
    exact ⟨more, hmore.symm⟩

/-- Up to the carriage returns at its end, each column of a line has an address. -/
theorem addressable_column {pre line more : List Char} {column : Nat}
    (hpre : pre.getLast? ≠ some '\r') (hline : '\n' ∉ line) (hlast : line.getLast? ≠ some '\r') :
    Addressable (pre ++ line.take column) (line.drop column ++ more) := by
  by_cases hend : line.drop column = []
  · left
    rw [take_of_length_le (drop_eq_nil_iff.1 hend), getLast?_append]
    cases hl : line.getLast? with
    | none => simpa using hpre
    | some c => simpa [hl] using hlast
  · right
    have hplain : '\n' ∉ line.drop column := fun h => hline (mem_of_mem_drop h)
    refine ⟨(line.drop column).getLast hend, ?_, ?_⟩
    · rw [takeWhile_append_of_not_mem hplain]
      exact mem_append_left _ (getLast_mem hend)
    · intro hreturn
      apply hlast
      rw [← take_append_drop column line, getLast?_append, getLast?_eq_some_getLast hend, hreturn]
      rfl

/-- A place that is found lies at the end of a beginning of the text. -/
theorem spot_of_index? {p : Position} (h : p.index? text = some n) : Spot text p n := by
  unfold Position.index? at h
  by_cases hzero : p.line = 0
  · simp [hzero] at h
  rw [if_neg (by simpa using hzero)] at h
  cases hskip : skipLines (p.line - 1) text with
  | none => simp [hskip] at h
  | some rest =>
    by_cases hcolumn : p.column ≤ (firstLine rest).length
    · obtain ⟨pre, rfl, hpre, hpos⟩ := skipLines_eq_some hskip
      simp only [hskip, hcolumn, if_true, length_append, Nat.add_sub_cancel, Option.some.injEq] at h
      obtain ⟨hline, more, hmore⟩ := exists_firstLine_append rest
      have hsplit : pre ++ rest =
          (pre ++ (firstLine rest).take p.column) ++ ((firstLine rest).drop p.column ++ more) := by
        rw [append_assoc, ← append_assoc (List.take _ _), take_append_drop, ← hmore]
      have hplace : p = Position.after ⟨1, 0⟩ (pre ++ (firstLine rest).take p.column) := by
        have hplain : '\n' ∉ (firstLine rest).take p.column := fun h =>
          hline (mem_of_mem_take h)
        rw [Position.after_append, hpos, Position.after_of_not_mem _ hplain, length_take,
          Nat.min_eq_left hcolumn]
        cases p with
        | mk line column =>
          simp only [Position.mk.injEq] at hzero ⊢
          omega
      have hn : n = (pre ++ (firstLine rest).take p.column).length := by
        rw [← h, length_append, length_take, Nat.min_eq_left hcolumn]
      rw [hplace, hn]
      exact spot_append hsplit.symm (addressable_column hpre hline (getLast?_firstLine rest))
    · simp [hskip, hcolumn] at h

/-! ## Patching bytes -/

/-- A text to put in place of the bytes `start` up to `stop`. -/
structure Patch where
  start : Nat
  stop : Nat
  text : List Char
deriving DecidableEq, Repr

/-- Whether two patches touch the same bytes: they have the same place, or each starts before the
other ends. An insertion at the edge of another patch touches nothing of it. -/
def Patch.Meets (p q : Patch) : Prop :=
  (p.start = q.start ∧ p.stop = q.stop) ∨ (p.start < q.stop ∧ q.start < p.stop)

/-- What patches put in at byte `n`: insertions first, then what replaces the bytes from there. -/
def putAt (ps : List Patch) (n : Nat) : List Char :=
  (ps.filter fun p => p.start == n && p.stop == n).flatMap Patch.text ++
    (ps.filter fun p => p.start == n && n < p.stop).flatMap Patch.text

/-- Whether the byte `n` is replaced. -/
def isCovered (ps : List Patch) (n : Nat) : Bool :=
  ps.any fun p => p.start ≤ n && n < p.stop

/-- A text with all patches made at once, when its first character is byte `n`. -/
def patched (ps : List Patch) : Nat → List Char → List Char
  | n, [] => putAt ps n
  | n, c :: cs =>
    putAt ps n ++ (if isCovered ps n then [] else [c]) ++ patched ps (n + c.utf8Size) cs

example :
    patched [⟨1, 3, ['x']⟩, ⟨1, 1, ['y']⟩, ⟨4, 4, ['z']⟩] 0 ['a', 'b', 'c', 'd'] =
      ['a', 'y', 'x', 'd', 'z'] := by
  decide

theorem Patch.Meets.symm {q : Patch} (h : p.Meets q) : q.Meets p := by
  unfold Patch.Meets at h ⊢
  omega

theorem patched_nil (n : Nat) (cs : List Char) : patched [] n cs = cs := by
  induction cs generalizing n with
  | nil => rfl
  | cons c cs ih =>
    rw [patched, ih]
    rfl

theorem putAt_cons_of_ne (h : p.start ≠ n) (ps : List Patch) : putAt (p :: ps) n = putAt ps n := by
  simp [putAt, h]

theorem putAt_of_lt (h : ∀ p ∈ ps, n < p.start) : putAt ps n = [] := by
  have hne : ∀ p ∈ ps, p.start ≠ n := fun p hp => (h p hp).ne'
  simp +contextual [putAt, hne]

theorem isCovered_of_lt (h : ∀ p ∈ ps, n < p.start) : isCovered ps n = false := by
  rw [isCovered, any_eq_false]
  intro p hp
  have := h p hp
  simp only [Bool.and_eq_true, decide_eq_true_eq]
  omega

/-- What stands before all patches is copied. -/
theorem patched_append (copied rest : List Char) (h : ∀ p ∈ ps, n + byteLength copied ≤ p.start) :
    patched ps n (copied ++ rest) = copied ++ patched ps (n + byteLength copied) rest := by
  induction copied generalizing n with
  | nil => rfl
  | cons c copied ih =>
    have hc := c.utf8Size_pos
    rw [byteLength] at h
    have hlt : ∀ p ∈ ps, n < p.start := fun p hp => by
      have := h p hp
      omega
    rw [cons_append, patched, putAt_of_lt hlt, isCovered_of_lt hlt,
      ih fun p hp => by have := h p hp; omega, Nat.add_assoc]
    rfl

/-- A patch that ends before byte `n` says nothing about what follows. -/
theorem patched_cons_of_lt (hstart : p.start < n) (hstop : p.stop ≤ n) (ps : List Patch)
    (cs : List Char) : patched (p :: ps) n cs = patched ps n cs := by
  induction cs generalizing n with
  | nil => exact putAt_cons_of_ne hstart.ne ps
  | cons c cs ih =>
    have hcovered : isCovered (p :: ps) n = isCovered ps n := by
      rw [isCovered, isCovered]
      simp [Nat.not_lt.2 hstop]
    rw [patched, patched, putAt_cons_of_ne hstart.ne, hcovered, ih (by omega) (by omega)]

theorem patched_insertion (h : p.start = p.stop) (ps : List Patch) (cs : List Char) :
    patched (p :: ps) p.start cs = p.text ++ patched ps p.start cs := by
  have hput : putAt (p :: ps) p.start = p.text ++ putAt ps p.start := by
    simp [putAt, h]
  cases cs with
  | nil => exact hput
  | cons c cs =>
    have hcovered : isCovered (p :: ps) p.start = isCovered ps p.start := by
      simp [isCovered, h]
    have hc := c.utf8Size_pos
    rw [patched, patched, hput, hcovered, patched_cons_of_lt (by omega) (by omega)]
    simp

/-- Nothing of a stretch inside a patch is left. -/
theorem patched_covered (inner rest : List Char) (hstart : p.start < n)
    (hstop : p.stop = n + byteLength inner) (h : ∀ q ∈ ps, p.stop ≤ q.start) :
    patched (p :: ps) n (inner ++ rest) = patched ps p.stop rest := by
  induction inner generalizing n with
  | nil =>
    rw [hstop]
    exact patched_cons_of_lt hstart hstop.le ps rest
  | cons c inner ih =>
    have hc := c.utf8Size_pos
    rw [byteLength] at hstop
    have hlt : ∀ q ∈ ps, n < q.start := fun q hq => by
      have := h q hq
      omega
    have hcovered : isCovered (p :: ps) n = true := by
      simp only [isCovered, any_cons, Bool.or_eq_true, Bool.and_eq_true, decide_eq_true_eq]
      omega
    rw [cons_append, patched, putAt_cons_of_ne hstart.ne, putAt_of_lt hlt, hcovered,
      ih (by omega) (by omega)]
    rfl

theorem patched_replacement (old rest : List Char) (hold : p.start < p.stop)
    (hstop : p.stop = p.start + byteLength old) (h : ∀ q ∈ ps, p.stop ≤ q.start) :
    patched (p :: ps) p.start (old ++ rest) = p.text ++ patched ps p.stop rest := by
  cases old with
  | nil =>
    rw [byteLength] at hstop
    omega
  | cons c old =>
    have hc := c.utf8Size_pos
    rw [byteLength] at hstop
    have hput : putAt (p :: ps) p.start = p.text := by
      have hlt : putAt ps p.start = [] := putAt_of_lt fun q hq => by
        have := h q hq
        omega
      simp only [putAt, append_eq_nil_iff] at hlt
      simp [putAt, hold, hold.ne', hlt.1, hlt.2]
    have hcovered : isCovered (p :: ps) p.start = true := by
      simp [isCovered, hold]
    rw [cons_append, patched, hput, hcovered, patched_covered old rest (by omega) (by omega) h]
    simp

/-- Of patches that keep apart at most one is of a kind whose members meet, so listing them in
another order selects the same. -/
theorem filter_eq_of_perm {qs : List Patch} (perm : ps.Perm qs)
    (apart : ps.Pairwise fun p q => ¬ p.Meets q) {keep : Patch → Bool}
    (hkeep : ∀ p q, keep p = true → keep q = true → p.Meets q) :
    ps.filter keep = qs.filter keep := by
  have hsingle : ∀ rs : List Patch, rs.Pairwise (fun p q => ¬ p.Meets q) →
      (rs.filter keep).Pairwise fun _ _ => False := by
    intro rs hrs
    refine (hrs.filter keep).imp_of_mem fun {p q} hp hq h => h ?_
    exact hkeep p q (mem_filter.1 hp).2 (mem_filter.1 hq).2
  have apart' : qs.Pairwise fun p q => ¬ p.Meets q :=
    perm.pairwise apart fun h h' => h h'.symm
  exact (perm.filter keep).eq_of_pairwise (fun _ _ _ _ h => h.elim) (hsingle ps apart)
    (hsingle qs apart')

/-- The walk does not depend on the order in which patches are listed. -/
theorem patched_perm {qs : List Patch} (perm : ps.Perm qs)
    (apart : ps.Pairwise fun p q => ¬ p.Meets q) (n : Nat) (cs : List Char) :
    patched ps n cs = patched qs n cs := by
  have hput : ∀ n, putAt ps n = putAt qs n := by
    intro n
    unfold putAt
    rw [filter_eq_of_perm perm apart, filter_eq_of_perm perm apart]
    all_goals
      intro p q hp hq
      simp only [Bool.and_eq_true, beq_iff_eq, decide_eq_true_eq] at hp hq
      unfold Patch.Meets
      omega
  have hcovered : ∀ n, isCovered ps n = isCovered qs n := fun n => perm.any_eq
  induction cs generalizing n with
  | nil => exact hput n
  | cons c cs ih => rw [patched, patched, hput, hcovered, ih]

/-! ## Edits as patches -/

/-- The bytes that an edit replaces, and what it puts there. -/
def Edit.patch (text : List Char) (e : Edit) : Patch :=
  ⟨byteLength (text.take e.start), byteLength (text.take e.stop), e.correction.replacement.toList⟩

theorem byteLength_take_add (text : List Char) (i j : Nat) :
    byteLength (text.take (i + j)) =
      byteLength (text.take i) + byteLength ((text.drop i).take j) := by
  rw [take_add, byteLength_append]

theorem byteLength_pos {cs : List Char} (h : cs ≠ []) : 0 < byteLength cs := by
  cases cs with
  | nil => exact absurd rfl h
  | cons c cs =>
    have := c.utf8Size_pos
    rw [byteLength]
    omega

theorem byteLength_take_lt (text : List Char) (i : Nat) {j : Nat} (hj : j ≤ text.length) :
    byteLength (text.take i) < byteLength (text.take j) ↔ i < j := by
  constructor
  · intro h
    by_contra hle
    obtain ⟨k, rfl⟩ := Nat.exists_eq_add_of_le (Nat.le_of_not_lt hle)
    rw [byteLength_take_add] at h
    omega
  · intro h
    obtain ⟨k, rfl⟩ := Nat.exists_eq_add_of_lt h
    have hne : (text.drop i).take (k + 1) ≠ [] := by
      intro he
      have := congrArg List.length he
      simp only [length_take, length_drop, length_nil] at this
      omega
    have := byteLength_pos hne
    rw [Nat.add_assoc, byteLength_take_add]
    omega

/-- The characters of an edit are in order and lie in the text. -/
def Edit.Within (text : List Char) (e : Edit) : Prop :=
  e.start ≤ e.stop ∧ e.stop ≤ text.length

/-- Edits collide exactly when the bytes they replace meet. -/
theorem Edit.conflicts_iff_meets (ha : a.Within text) (hb : b.Within text) :
    a.conflicts b = true ↔ (a.patch text).Meets (b.patch text) := by
  obtain ⟨ha, ha'⟩ := ha
  obtain ⟨hb, hb'⟩ := hb
  have h1 := byteLength_take_lt text a.start (hb.trans hb')
  have h2 := byteLength_take_lt text b.start (ha.trans ha')
  have h3 := byteLength_take_lt text a.stop hb'
  have h4 := byteLength_take_lt text b.stop ha'
  have h5 := byteLength_take_lt text a.start hb'
  have h6 := byteLength_take_lt text b.start ha'
  rw [Edit.conflicts_eq_true hb]
  simp only [Patch.Meets, Edit.patch]
  omega

/-- Edits in the order of the text are made as the walk makes them. -/
theorem substitute_eq_patched (h : InOrder text es) {i : Nat} (hi : i ≤ text.length)
    (first : ∀ e ∈ es, i ≤ e.start) :
    substitute i es (text.drop i) =
      patched (es.map (Edit.patch text)) (byteLength (text.take i)) (text.drop i) := by
  induction es generalizing i with
  | nil => exact (patched_nil _ _).symm
  | cons e es ih =>
    obtain ⟨horder, hlength⟩ := h.ordered e mem_cons_self
    obtain ⟨hafter, _⟩ := pairwise_cons.1 h.ascending
    obtain ⟨k, hk⟩ := Nat.exists_eq_add_of_le (first e mem_cons_self)
    obtain ⟨m, hm⟩ := Nat.exists_eq_add_of_le horder
    have rest := ih h.tail hlength hafter
    have hstart : byteLength (text.take i) + byteLength ((text.drop i).take k) =
        (e.patch text).start := by
      rw [Edit.patch, hk, byteLength_take_add]
    have hstop : (e.patch text).stop =
        (e.patch text).start + byteLength ((text.drop e.start).take m) := by
      simp only [Edit.patch, hm, byteLength_take_add]
    have hlater : ∀ q ∈ es.map (Edit.patch text), (e.patch text).stop ≤ q.start := by
      intro q hq
      obtain ⟨d, hd, rfl⟩ := mem_map.1 hq
      obtain ⟨l, hl⟩ := Nat.exists_eq_add_of_le (hafter d hd)
      simp only [Edit.patch, hl, byteLength_take_add]
      omega
    have hcopy : patched ((e :: es).map (Edit.patch text)) (byteLength (text.take i))
        (text.drop i) = (text.drop i).take k ++
          patched ((e :: es).map (Edit.patch text)) (e.patch text).start (text.drop e.start) := by
      have hsplit : text.drop i = (text.drop i).take k ++ text.drop e.start := by
        rw [hk, ← drop_drop, take_append_drop]
      rw [← hstart]
      conv_lhs => rw [hsplit]
      apply patched_append
      intro q hq
      rw [hstart]
      rcases mem_cons.1 hq with rfl | hq
      · exact le_refl _
      · have := hlater q hq
        omega
    have hsub : substitute i (e :: es) (text.drop i) = (text.drop i).take k ++
        ((e.patch text).text ++ substitute e.stop es (text.drop e.stop)) := by
      rw [substitute, drop_drop, append_assoc, hk, Nat.add_sub_cancel_left,
        Nat.add_sub_cancel' ((first e mem_cons_self).trans horder)]
      rfl
    rw [hcopy, hsub, rest, map_cons]
    by_cases hempty : e.start = e.stop
    · have hpoint : (e.patch text).start = (e.patch text).stop := by
        simp only [Edit.patch, hempty]
      rw [patched_insertion hpoint, hempty, hpoint]
      rfl
    · have hold : (e.patch text).start < (e.patch text).stop :=
        (byteLength_take_lt text _ hlength).2 (by omega)
      have hsplit : text.drop e.start = (text.drop e.start).take m ++ text.drop e.stop := by
        rw [hm, ← drop_drop, take_append_drop]
      rw [hsplit, patched_replacement _ _ hold hstop hlater]
      rfl

/-- An edit that is no later than another, and does not collide with it, ends before it starts. -/
theorem Edit.stop_le_start (hb : b.start ≤ b.stop) (hlater : b.isLater a = true)
    (hapart : ¬ a.conflicts b = true) : a.stop ≤ b.start := by
  rw [Edit.conflicts_eq_true hb] at hapart
  rw [Edit.isLater_iff] at hlater
  omega

/-- Edits that keep apart are made as the walk makes them, in whatever order they are listed. -/
theorem run_eq_patched (ordered : ∀ e ∈ plan.accepted, e.Within text)
    (apart : plan.accepted.Pairwise fun a b => ¬ (a.patch text).Meets (b.patch text)) :
    plan.run text = patched (plan.accepted.map (Edit.patch text)) 0 text := by
  obtain ⟨es, hes⟩ : ∃ es, es = (plan.accepted.mergeSort Edit.isLater).reverse := ⟨_, rfl⟩
  have perm : plan.accepted.Perm es := by
    rw [hes]
    exact ((reverse_perm _).trans (mergeSort_perm _ _)).symm
  have ordered' : ∀ e ∈ es, e.Within text := fun e he => ordered e (perm.mem_iff.2 he)
  have apart' : es.Pairwise fun a b => ¬ (a.patch text).Meets (b.patch text) :=
    perm.pairwise apart fun h h' => h h'.symm
  have later : es.Pairwise fun a b => b.isLater a = true := by
    rw [hes, pairwise_reverse]
    exact pairwise_mergeSort Edit.isLater_trans Edit.isLater_total _
  have inOrder : InOrder text es := by
    refine ⟨ordered', (later.and apart').imp_of_mem fun {a b} ha hb h => ?_⟩
    apply Edit.stop_le_start (ordered' b hb).1 h.1
    rw [Edit.conflicts_iff_meets (ordered' a ha) (ordered' b hb)]
    exact h.2
  calc plan.run text = es.foldr (fun e t => e.splice t) text := by
        rw [Plan.run, hes, foldr_reverse]
    _ = substitute 0 es text := foldr_splice inOrder (Nat.zero_le _) fun e _ => Nat.zero_le _
    _ = patched (es.map (Edit.patch text)) 0 text :=
        substitute_eq_patched inOrder (Nat.zero_le _) fun e _ => Nat.zero_le _
    _ = patched (plan.accepted.map (Edit.patch text)) 0 text := by
        symm
        apply patched_perm (perm.map _)
        rwa [pairwise_map]

/-! ## Which corrections are made -/

/-- The members of a list that are marked. -/
def picked {α : Type} : List Bool → List α → List α
  | k :: kept, a :: as => if k then a :: picked kept as else picked kept as
  | _, _ => []

theorem picked_map {α β : Type} (f : α → β) (kept : List Bool) (as : List α) :
    picked kept (as.map f) = (picked kept as).map f := by
  induction as generalizing kept with
  | nil => cases kept <;> rfl
  | cons a as ih =>
    cases kept with
    | nil => rfl
    | cons k kept => cases k <;> simp [picked, ih]

theorem picked_sublist {α : Type} (kept : List Bool) (as : List α) :
    (picked kept as).Sublist as := by
  fun_induction picked kept as with
  | case1 kept a as ih => exact ih.cons_cons a
  | case2 k kept a as _ ih => exact ih.cons a
  | case3 => exact nil_sublist _

/-- Each patch is marked that meets no marked one before it. -/
def KeepsFirst (kept : List Bool) (ps : List Patch) : Prop :=
  kept.length = ps.length ∧
    ∀ (i : Nat) (p : Patch), ps[i]? = some p → (kept[i]? = some true ↔
      ∀ j < i, ∀ q : Patch, ps[j]? = some q → kept[j]? = some true → ¬ q.Meets p)

/-- Each patch is marked that meets none of those taken before and no marked one before it. -/
def KeepsBehind (taken : List Patch) (kept : List Bool) (ps : List Patch) : Prop :=
  kept.length = ps.length ∧
    ∀ (i : Nat) (p : Patch), ps[i]? = some p → (kept[i]? = some true ↔
      (∀ q ∈ taken, ¬ q.Meets p) ∧
        ∀ j < i, ∀ q : Patch, ps[j]? = some q → kept[j]? = some true → ¬ q.Meets p)

theorem keepsBehind_nil {kept : List Bool} : KeepsBehind [] kept ps ↔ KeepsFirst kept ps := by
  simp [KeepsBehind, KeepsFirst]

theorem KeepsBehind.cons {taken : List Patch} {p : Patch} {k : Bool} {kept : List Bool}
    (hk : k = true ↔ ∀ q ∈ taken, ¬ q.Meets p)
    (h : KeepsBehind (if k then taken ++ [p] else taken) kept ps) :
    KeepsBehind taken (k :: kept) (p :: ps) := by
  refine ⟨by simp [h.1], fun i q hq => ?_⟩
  cases i with
  | zero =>
    obtain rfl : p = q := by simpa using hq
    simpa using hk
  | succ i =>
    have rest := h.2 i q hq
    rw [Nat.forall_lt_succ_left]
    cases k with
    | true => simpa [or_imp, forall_and, and_assoc] using rest
    | false => simpa using rest

/-- Edits are accepted from first to last. -/
theorem foldl_add_eq (hplan : ∀ e ∈ plan.accepted, e.Within text) (hes : ∀ e ∈ es, e.Within text) :
    ∃ kept, KeepsBehind (plan.accepted.map (Edit.patch text)) kept (es.map (Edit.patch text)) ∧
      es.foldl Plan.add plan = ⟨plan.accepted ++ picked kept es,
        plan.skipped ++ (picked (kept.map not) es).map Edit.correction⟩ := by
  induction es generalizing plan with
  | nil => exact ⟨[], ⟨rfl, by simp⟩, by simp [picked]⟩
  | cons e es ih =>
    obtain ⟨he, hes⟩ := forall_mem_cons.1 hes
    have hany : plan.accepted.any (·.conflicts e) = true ↔
        ∃ a ∈ plan.accepted, (a.patch text).Meets (e.patch text) := by
      rw [any_eq_true]
      refine exists_congr fun a => and_congr_right fun ha => ?_
      exact Edit.conflicts_iff_meets (hplan a ha) he
    by_cases hmeets : ∃ a ∈ plan.accepted, (a.patch text).Meets (e.patch text)
    · have hadd : plan.add e = ⟨plan.accepted, plan.skipped ++ [e.correction]⟩ := by
        rw [Plan.add, if_pos (hany.2 hmeets)]
      have hplan' : ∀ a ∈ (plan.add e).accepted, a.Within text := by rwa [hadd]
      obtain ⟨kept, hkept, hfold⟩ := ih hplan' hes
      rw [hadd] at hkept hfold
      refine ⟨false :: kept, .cons (by simpa using hmeets) hkept, ?_⟩
      rw [foldl_cons, hadd, hfold]
      simp [picked]
    · have hadd : plan.add e = ⟨plan.accepted ++ [e], plan.skipped⟩ := by
        rw [Plan.add, if_neg (mt hany.1 hmeets)]
      have hplan' : ∀ a ∈ (plan.add e).accepted, a.Within text := by
        simpa [hadd, or_imp, forall_and] using ⟨hplan, he⟩
      obtain ⟨kept, hkept, hfold⟩ := ih hplan' hes
      rw [hadd] at hkept hfold
      refine ⟨true :: kept, .cons (by simpa using hmeets) (by simpa using hkept), ?_⟩
      rw [foldl_cons, hadd, hfold]
      simp [picked]

/-- What is accepted keeps apart. -/
theorem pairwise_foldl_add (hplan : ∀ e ∈ plan.accepted, e.Within text)
    (hes : ∀ e ∈ es, e.Within text)
    (apart : plan.accepted.Pairwise fun a b => ¬ (a.patch text).Meets (b.patch text)) :
    (es.foldl Plan.add plan).accepted.Pairwise
      fun a b => ¬ (a.patch text).Meets (b.patch text) := by
  induction es generalizing plan with
  | nil => exact apart
  | cons e es ih =>
    have he := hes e mem_cons_self
    apply ih
    · intro a ha
      rcases Plan.mem_accepted_add ha with ha | rfl
      · exact hplan a ha
      · exact he
    · exact fun d hd => hes d (mem_cons_of_mem _ hd)
    · unfold Plan.add
      split
      · exact apart
      · next hany =>
        refine pairwise_append.2 ⟨apart, pairwise_singleton _ _, fun a ha b hb => ?_⟩
        rw [mem_singleton.1 hb, ← Edit.conflicts_iff_meets (hplan a ha) he]
        exact fun hconflict => hany (any_eq_true.2 ⟨a, ha, hconflict⟩)

/-! ## Corrections of a text -/

/-- Whether a correction can be made in a text: its start is not behind its end, and both are
places in the text. -/
def Correction.Fits (text : List Char) (c : Correction) : Prop :=
  c.isOrdered = true ∧ (∃ n, c.span.start.byteOffset? text = some n) ∧
    ∃ n, c.span.stop.byteOffset? text = some n

/-- The bytes that a correction replaces, and what it puts there. -/
def Correction.patch (text : List Char) (c : Correction) : Patch :=
  ⟨(c.span.start.byteOffset? text).getD 0, (c.span.stop.byteOffset? text).getD 0,
   c.replacement.toList⟩

theorem Correction.Fits.locate (h : c.Fits text) :
    ∃ e, Edit.locate text c = .ok e ∧ e.Within text ∧ e.patch text = c.patch text ∧
      e.correction = c := by
  obtain ⟨ordered, ⟨a, ha⟩, ⟨b, hb⟩⟩ := h
  obtain ⟨i, hi, rfl⟩ := Option.map_eq_some_iff.1 ha
  obtain ⟨j, hj, rfl⟩ := Option.map_eq_some_iff.1 hb
  have hij := (spot_of_index? hi).le (spot_of_index? hj) (isOrdered_iff.1 ordered)
  refine ⟨⟨i, j, c⟩, Edit.locate_eq_ok ordered hi hj, ⟨hij, (spot_of_index? hj).bound⟩, ?_, rfl⟩
  rw [Correction.patch, ha, hb]
  rfl

theorem Correction.fits_of_locate {e : Edit} (h : Edit.locate text c = .ok e) : c.Fits text := by
  unfold Edit.locate at h
  by_cases ordered : c.isOrdered = true
  · rw [if_pos ordered] at h
    cases hi : c.span.start.index? text with
    | none => simp [hi] at h
    | some i =>
      cases hj : c.span.stop.index? text with
      | none => simp [hi, hj] at h
      | some j =>
        refine ⟨ordered, ⟨byteLength (text.take i), ?_⟩, ⟨byteLength (text.take j), ?_⟩⟩
        · rw [Position.byteOffset?, hi, Option.map_some]
        · rw [Position.byteOffset?, hj, Option.map_some]
  · simp [ordered] at h

theorem mapM_locate_of_fits (h : ∀ c ∈ cs, c.Fits text) :
    ∃ es, cs.mapM (Edit.locate text) = .ok es ∧ (∀ e ∈ es, e.Within text) ∧
      es.map (Edit.patch text) = cs.map (Correction.patch text) ∧ es.map Edit.correction = cs := by
  induction cs with
  | nil => exact ⟨[], rfl, by simp, rfl, rfl⟩
  | cons c cs ih =>
    obtain ⟨e, he, hwithin, hpatch, hcorrection⟩ := (h c mem_cons_self).locate
    obtain ⟨es, hes, hwithins, hpatches, hcorrections⟩ :=
      ih fun d hd => h d (mem_cons_of_mem _ hd)
    refine ⟨e :: es, ?_, ?_, ?_, ?_⟩
    · rw [mapM_cons, he, hes]
      rfl
    · simpa using ⟨hwithin, hwithins⟩
    · rw [map_cons, map_cons, hpatch, hpatches]
    · rw [map_cons, hcorrection, hcorrections]

theorem fits_of_mapM_locate (h : cs.mapM (Edit.locate text) = .ok es) : ∀ c ∈ cs, c.Fits text := by
  induction cs generalizing es with
  | nil => simp
  | cons c cs ih =>
    rw [mapM_cons] at h
    cases he : Edit.locate text c with
    | error fault =>
      rw [he] at h
      cases h
    | ok e =>
      cases hes : cs.mapM (Edit.locate text) with
      | error fault =>
        rw [he, hes] at h
        cases h
      | ok es' =>
        simpa using ⟨Correction.fits_of_locate he, ih hes⟩

/-- Corrections that all fit are applied; what that gives. -/
theorem applyAll_of_fits {source : String} (h : ∀ c ∈ cs, c.Fits source.toList) :
    ∃ kept, KeepsFirst kept (cs.map (Correction.patch source.toList)) ∧
      Correction.applyAll source cs = .ok ⟨String.ofList
        (patched ((picked kept cs).map (Correction.patch source.toList)) 0 source.toList),
        (picked kept cs).length, picked (kept.map not) cs⟩ := by
  obtain ⟨es, hes, hwithin, hpatches, hcorrections⟩ := mapM_locate_of_fits h
  have hnone : ∀ e ∈ ({} : Plan).accepted, e.Within source.toList := fun e he =>
    absurd he not_mem_nil
  obtain ⟨kept, hkept, hfold⟩ := foldl_add_eq hnone hwithin
  have hpairwise := pairwise_foldl_add hnone hwithin List.Pairwise.nil
  have haccepted : ∀ e ∈ (es.foldl Plan.add {}).accepted, e.Within source.toList := by
    intro e he
    rw [hfold] at he
    exact hwithin e ((picked_sublist kept es).subset (by simpa using he))
  have hrun := run_eq_patched haccepted hpairwise
  refine ⟨kept, ?_, ?_⟩
  · rw [← hpatches]
    exact keepsBehind_nil.1 hkept
  · rw [Correction.applyAll, hes]
    dsimp only
    rw [hrun, hfold]
    simp only [nil_append, ← picked_map, hpatches]
    rw [← length_map (f := Edit.correction), ← picked_map, hcorrections]

theorem Correction.not_fits_iff :
    ¬ c.Fits text ↔ c.isOrdered = false ∨ c.span.start.byteOffset? text = none ∨
      c.span.stop.byteOffset? text = none := by
  simp only [Correction.Fits, not_and_or, Bool.not_eq_true, not_exists,
    Option.eq_none_iff_forall_ne_some]

theorem picked_replicate {α : Type} (as : List α) :
    picked (replicate as.length true) as = as := by
  induction as with
  | nil => rfl
  | cons a as ih => rw [length_cons, replicate_succ, picked, if_pos rfl, ih]

/-- Patches that keep apart are all marked. -/
theorem KeepsFirst.eq_replicate {kept : List Bool} (h : KeepsFirst kept ps)
    (apart : ps.Pairwise fun p q => ¬ p.Meets q) : kept = replicate ps.length true := by
  rw [eq_replicate_iff]
  refine ⟨h.1, fun k hk => ?_⟩
  obtain ⟨i, hi, rfl⟩ := mem_iff_getElem.1 hk
  have hi' : i < ps.length := h.1 ▸ hi
  have hmark : kept[i]? = some true := by
    rw [h.2 i ps[i] (getElem?_eq_getElem hi')]
    intro j hj q hq _
    obtain ⟨hj', rfl⟩ := List.getElem?_eq_some_iff.1 hq
    exact pairwise_iff_getElem.1 apart j i hj' hi' hj
  rw [getElem?_eq_getElem hi] at hmark
  exact Option.some.inj hmark

/-- Corrections that fit and keep apart are all made. -/
theorem applyAll_of_apart {source : String} (h : ∀ c ∈ cs, c.Fits source.toList)
    (apart : (cs.map (Correction.patch source.toList)).Pairwise fun p q => ¬ p.Meets q) :
    ∃ done, Correction.applyAll source cs = .ok done ∧ done.output =
      String.ofList (patched (cs.map (Correction.patch source.toList)) 0 source.toList) := by
  obtain ⟨kept, hkept, happly⟩ := applyAll_of_fits h
  have hall := hkept.eq_replicate apart
  rw [length_map] at hall
  refine ⟨_, happly, ?_⟩
  rw [hall, picked_replicate]

/-- Applying corrections fails exactly if one of them does not fit the text. Otherwise the first of
those that touch the same bytes wins, the others are reported as left out, and all that are made
are made at once. If no two touch the same bytes, their order does not matter. -/
theorem applyAll_at_once (source : String) (corrections : List Correction) :
    ((∃ fault, Correction.applyAll source corrections = .error fault) ↔
      ∃ c ∈ corrections, c.isOrdered = false ∨ c.span.start.byteOffset? source.toList = none ∨
        c.span.stop.byteOffset? source.toList = none) ∧
    ∀ done, Correction.applyAll source corrections = .ok done →
      (∃ kept, KeepsFirst kept (corrections.map (Correction.patch source.toList)) ∧
        done.applied = (picked kept corrections).length ∧
        done.skipped = picked (kept.map not) corrections ∧
        done.output = String.ofList (patched
          ((picked kept corrections).map (Correction.patch source.toList)) 0 source.toList)) ∧
      ((corrections.map (Correction.patch source.toList)).Pairwise (fun p q => ¬ p.Meets q) →
        ∀ others, others.Perm corrections →
          ∃ done', Correction.applyAll source others = .ok done' ∧
            done'.output = done.output) := by
  by_cases h : ∀ c ∈ corrections, c.Fits source.toList
  · obtain ⟨kept, hkept, happly⟩ := applyAll_of_fits h
    constructor
    · constructor
      · rintro ⟨fault, hfault⟩
        rw [happly] at hfault
        cases hfault
      · rintro ⟨c, hc, hmisfit⟩
        exact absurd (h c hc) (Correction.not_fits_iff.2 hmisfit)
    · intro done hdone
      constructor
      · rw [happly] at hdone
        obtain rfl := Except.ok.inj hdone
        exact ⟨kept, hkept, rfl, rfl, rfl⟩
      · intro apart others perm
        obtain ⟨here, hhere, houtput⟩ := applyAll_of_apart h apart
        obtain rfl := Except.ok.inj (hhere.symm.trans hdone)
        have hpatches := perm.map (Correction.patch source.toList)
        have apart' := hpatches.symm.pairwise apart fun h h' => h h'.symm
        obtain ⟨done', hdone', houtput'⟩ :=
          applyAll_of_apart (fun c hc => h c (perm.mem_iff.1 hc)) apart'
        refine ⟨done', hdone', ?_⟩
        rw [houtput', houtput, patched_perm hpatches apart']
  · have hfault : ∃ fault, Correction.applyAll source corrections = .error fault := by
      cases hes : corrections.mapM (Edit.locate source.toList) with
      | error fault => exact ⟨fault, by rw [Correction.applyAll, hes]⟩
      | ok es => exact absurd (fits_of_mapM_locate hes) h
    obtain ⟨fault, hfault⟩ := hfault
    refine ⟨⟨fun _ => ?_, fun _ => ⟨fault, hfault⟩⟩, ?_⟩
    · simp only [not_forall, Correction.not_fits_iff] at h
      obtain ⟨c, hc, hmisfit⟩ := h
      exact ⟨c, hc, hmisfit⟩
    · intro done hdone
      rw [hfault] at hdone
      cases hdone

end ModCheck
