import Mathlib.Data.List.Forall2
import ModCheck.Validation

/-
  Identifiers that occur more than once. Objects are put together by type name and identifier; an
  object without an identifier, or with an empty one, belongs nowhere. Each pair of a type name and
  an identifier that two or more objects carry has one message, and the messages follow the first
  occurrences of their pairs (`repeatedIds_exact`). The order of the files decides where a message
  stands, not which pairs are reported or how many objects are named.
-/

namespace ModCheck

open List

variable {documents : List Document} {pair : String × String}

/-! ## Objects that carry an identifier -/

/-- Whether an object is of the type `pair.1` and carries the identifier `pair.2`. An empty one
counts for nothing. -/
def Object.carries (pair : String × String) (o : Object) : Bool :=
  o.typeName == pair.1 && o.value? Key.id == some pair.2 && pair.2 != ""

/-- The objects of all files, file after file. -/
def allObjects (documents : List Document) : List Object :=
  documents.flatMap (·.objects)

/-- The objects that carry a pair, in the order of the files and of the objects in them. -/
def carriers (documents : List Document) (pair : String × String) : List Object :=
  (allObjects documents).filter (·.carries pair)

/-- How many objects stand before the first that carries a pair. -/
def firstCarrier (documents : List Document) (pair : String × String) : Nat :=
  (allObjects documents).findIdx (·.carries pair)

/-- The message about a pair: an error across files at the identifier of the second object that
carries it, which names all of them in order. -/
structure ReportsPair (documents : List Document) (pair : String × String) (m : Message) :
    Prop where
  severity : m.severity = .error
  code : m.code = Code.duplicateId.text
  crossFile : m.crossFile = true
  place : ∃ second p, (carriers documents pair)[1]? = some second ∧
    second.get? Key.id = some p ∧ m.file = second.file ∧ m.span = some p.valueSpan ∧
    m.line = p.valueSpan.start.line
  related : m.related = (carriers documents pair).map idLine
  text : m.text = "Duplicate " ++ Key.id ++ " '" ++ pair.2 ++ "' for [" ++ pair.1 ++ "] at " ++
    ", ".intercalate (m.related.map RelatedLine.display)

/-- The pair that an object carries. -/
def Object.pair? (o : Object) : Option (String × String) :=
  o.id?.map (o.typeName, ·)

theorem carries_eq (pair : String × String) (o : Object) :
    o.carries pair = (o.pair? == some pair) := by
  unfold Object.carries Object.pair? Object.id?
  cases o.value? Key.id with
  | none => simp
  | some value => by_cases h : value = "" <;> grind

/-- Every carrier has a property that holds the identifier. -/
theorem exists_get_of_carries {o : Object} (h : o.carries pair = true) :
    ∃ p, o.get? Key.id = some p := by
  unfold Object.carries Object.value? at h
  cases e : o.get? Key.id with
  | none => simp [e] at h
  | some p => exact ⟨p, rfl⟩

/-! ## First occurrences -/

section

variable {α β : Type}

theorem findIdx_lt_of_filter {p q r : α → Bool} (hp : ∀ x, p x = true → r x = true)
    (hq : ∀ x, q x = true → r x = true) {xs : List α}
    (h : (xs.filter r).findIdx p < (xs.filter r).findIdx q) : xs.findIdx p < xs.findIdx q := by
  induction xs with
  | nil => simp at h
  | cons x xs ih =>
    by_cases hr : r x = true
    · rw [filter_cons_of_pos hr] at h
      cases hpx : p x <;> cases hqx : q x <;>
        simp only [findIdx_cons, hpx, hqx, cond_true, cond_false] at h ⊢ <;> omega
    · -- neither condition holds of what the filter takes out
      have notp : p x = false := Bool.eq_false_iff.2 fun e => hr (hp x e)
      have notq : q x = false := Bool.eq_false_iff.2 fun e => hr (hq x e)
      rw [filter_cons_of_neg hr] at h
      simp only [findIdx_cons, notp, notq, cond_false]
      omega

/-- Keys without repetitions follow their first occurrences. -/
theorem pairwise_findIdx_eraseDups [BEq β] [LawfulBEq β] (key : α → Option β) (xs : List α) :
    (xs.filterMap key).eraseDups.Pairwise fun a b =>
      xs.findIdx (key · == some a) < xs.findIdx (key · == some b) := by
  match xs with
  | [] => simp
  | x :: xs =>
    have later {b : β} (hb : key x ≠ some b) : (x :: xs).findIdx (key · == some b) =
        xs.findIdx (key · == some b) + 1 := by
      rw [findIdx_cons, beq_eq_false_iff_ne.2 hb, cond_false]
    cases hx : key x with
    | none =>
      rw [filterMap_cons_none hx]
      refine (pairwise_findIdx_eraseDups key xs).imp fun {a b} h => ?_
      rw [later (by simp [hx]), later (by simp [hx])]
      exact Nat.succ_lt_succ h
    | some c =>
      -- the rest has the keys other than `c`, which come from the other items
      have others : (xs.filterMap key).filter (!· == c) =
          (xs.filter (key · != some c)).filterMap key := by
        rw [filter_filterMap, filterMap_filter]
        refine filterMap_congr fun y _ => ?_
        cases key y with
        | none => rfl
        | some d => by_cases hd : d = c <;> simp [hd, Option.filter]
      have distinct : ∀ b ∈ ((xs.filter (key · != some c)).filterMap key).eraseDups,
          b ≠ c ∧ key x ≠ some b := by
        intro b hb
        rw [mem_eraseDups, ← others] at hb
        have hne : b ≠ c := by simpa using of_mem_filter hb
        exact ⟨hne, by simpa [hx] using hne.symm⟩
      rw [filterMap_cons_some hx, eraseDups_cons, others, pairwise_cons]
      constructor
      · intro b hb
        rw [later (distinct b hb).2, findIdx_cons, beq_iff_eq.2 hx, cond_true]
        exact Nat.succ_pos _
      · refine (pairwise_findIdx_eraseDups key _).imp_of_mem fun {a b} ha hb h => ?_
        rw [later (distinct a ha).2, later (distinct b hb).2]
        refine Nat.succ_lt_succ (findIdx_lt_of_filter (fun y hy => ?_) (fun y hy => ?_) h)
        · rw [beq_iff_eq] at hy
          simpa [hy] using (distinct a ha).1
        · rw [beq_iff_eq] at hy
          simpa [hy] using (distinct b hb).1
termination_by xs.length
decreasing_by
  · exact Nat.lt_succ_self _
  · exact Nat.lt_succ_of_le (length_filter_le _ _)

/-- Results of the items that fit, one for each. -/
theorem forall₂_filter_filterMap {R : α → β → Prop} {p : α → Bool} {f : α → Option β} {xs : List α}
    (some_of : ∀ x ∈ xs, p x = true → ∃ y, f x = some y ∧ R x y)
    (none_of : ∀ x ∈ xs, p x = false → f x = none) :
    List.Forall₂ R (xs.filter p) (xs.filterMap f) := by
  induction xs with
  | nil => exact .nil
  | cons x xs ih =>
    obtain ⟨some_x, some_xs⟩ := forall_mem_cons.1 some_of
    obtain ⟨none_x, none_xs⟩ := forall_mem_cons.1 none_of
    cases hx : p x with
    | true =>
      obtain ⟨y, hy, related⟩ := some_x hx
      rw [filter_cons_of_pos hx, filterMap_cons_some hy]
      exact .cons related (ih some_xs none_xs)
    | false =>
      rw [filter_cons_of_neg (by simp [hx]), filterMap_cons_none (none_x hx)]
      exact ih some_xs none_xs

end

/-! ## Messages -/

/-- The pairs that objects carry, each once. -/
def carriedPairs (documents : List Document) : List (String × String) :=
  ((allObjects documents).filterMap Object.pair?).eraseDups

theorem identified_pairs (objects : List Object) :
    (identified objects).map (fun i => (i.typeName, i.id)) = objects.filterMap Object.pair? := by
  unfold identified
  rw [map_filterMap]
  refine filterMap_congr fun o _ => ?_
  unfold Object.pair?
  cases o.id? <;> rfl

theorem identified_members (objects : List Object) (pair : String × String) :
    ((identified objects).filter fun i => (i.typeName, i.id) == pair).map (·.object) =
      objects.filter (·.carries pair) := by
  unfold identified
  rw [filter_filterMap, map_filterMap, ← filterMap_eq_filter]
  refine filterMap_congr fun o _ => ?_
  cases hid : o.id? with
  | none => simp [carries_eq, Object.pair?, hid, Option.guard]
  | some id =>
    by_cases h : (o.typeName, id) = pair <;> simp [carries_eq, Object.pair?, hid, Option.guard, h]

theorem repeatedIds_eq (documents : List Document) :
    repeatedIds documents = (carriedPairs documents).filterMap fun pair =>
      duplicateMessage? pair.1 pair.2 (carriers documents pair) := by
  unfold repeatedIds carriedPairs carriers
  dsimp only
  rw [identified_pairs]
  simp only [identified_members]
  rfl

/-- A pair that two objects carry has its message. -/
theorem reportsPair_of_carriers (h : 2 ≤ (carriers documents pair).length) :
    ∃ m, duplicateMessage? pair.1 pair.2 (carriers documents pair) = some m ∧
      ReportsPair documents pair m := by
  match e : carriers documents pair with
  | [] => simp [e] at h
  | [only] => simp [e] at h
  | first :: second :: rest =>
    have carried : second.carries pair = true := by
      have : second ∈ carriers documents pair := by simp [e]
      exact of_mem_filter this
    obtain ⟨p, hp⟩ := exists_get_of_carries carried
    refine ⟨_, by rw [duplicateMessage?, hp]; rfl, rfl, rfl, rfl, ?_, ?_, rfl⟩
    · exact ⟨second, p, by rw [e]; rfl, hp, rfl, rfl, rfl⟩
    · rw [e]

theorem duplicateMessage?_eq_none {typeName id : String} {members : List Object}
    (h : members.length < 2) : duplicateMessage? typeName id members = none := by
  match members with
  | [] => rfl
  | [only] => rfl
  | first :: second :: rest =>
    simp only [length_cons] at h
    omega

theorem exists_reportsPair {m : Message} (h : m ∈ repeatedIds documents) :
    ∃ pair, ReportsPair documents pair m := by
  rw [repeatedIds_eq] at h
  obtain ⟨pair, -, e⟩ := mem_filterMap.1 h
  by_cases repeated : 2 ≤ (carriers documents pair).length
  · obtain ⟨m', e', reports⟩ := reportsPair_of_carriers repeated
    obtain rfl := Option.some.inj (e'.symm.trans e)
    exact ⟨pair, reports⟩
  · rw [duplicateMessage?_eq_none (Nat.not_le.1 repeated)] at e
    cases e

theorem mem_carriedPairs (h : 2 ≤ (carriers documents pair).length) :
    pair ∈ carriedPairs documents := by
  obtain ⟨o, ho⟩ : ∃ o, o ∈ carriers documents pair := exists_mem_of_length_pos (by omega)
  obtain ⟨mem, carried⟩ := mem_filter.1 ho
  exact mem_eraseDups.2 (mem_filterMap.2 ⟨o, mem, by simpa [carries_eq] using carried⟩)

theorem length_carriers_perm {others : List Document} (h : documents.Perm others)
    (pair : String × String) : (carriers others pair).length = (carriers documents pair).length :=
  ((h.flatMap_right _).filter _).length_eq.symm

/-- The pairs with more than one carrier, in the order of their first occurrences. -/
theorem repeatedIds_forall₂ (documents : List Document) :
    ∃ pairs : List (String × String),
      (∀ pair, pair ∈ pairs ↔ 2 ≤ (carriers documents pair).length) ∧
      pairs.Pairwise (fun p q => firstCarrier documents p < firstCarrier documents q) ∧
      List.Forall₂ (ReportsPair documents) pairs (repeatedIds documents) := by
  refine ⟨(carriedPairs documents).filter fun pair => 2 ≤ (carriers documents pair).length, ?_, ?_,
    ?_⟩
  · intro pair
    rw [mem_filter, decide_eq_true_iff]
    exact ⟨And.right, fun h => ⟨mem_carriedPairs h, h⟩⟩
  · have ordered := pairwise_findIdx_eraseDups Object.pair? (allObjects documents)
    simp only [← carries_eq] at ordered
    exact ordered.filter _
  · rw [repeatedIds_eq]
    refine forall₂_filter_filterMap (fun pair _ h => ?_) fun pair _ h => ?_
    · exact reportsPair_of_carriers (by simpa using h)
    · exact duplicateMessage?_eq_none (by simpa using h)

/-- A pair is reported with as many objects as carry it, if these are more than one. -/
theorem reported_iff {n : Nat} :
    (∃ m ∈ repeatedIds documents, ReportsPair documents pair m ∧ m.related.length = n) ↔
      2 ≤ n ∧ (carriers documents pair).length = n := by
  constructor
  · rintro ⟨m, -, reports, rfl⟩
    obtain ⟨second, p, here, -⟩ := reports.place
    obtain ⟨h, -⟩ := List.getElem?_eq_some_iff.1 here
    rw [reports.related, length_map]
    exact ⟨h, rfl⟩
  · rintro ⟨h, rfl⟩
    obtain ⟨m, e, reports⟩ := reportsPair_of_carriers h
    refine ⟨m, ?_, reports, by rw [reports.related, length_map]⟩
    rw [repeatedIds_eq]
    exact mem_filterMap.2 ⟨pair, mem_carriedPairs h, e⟩

/-- Each pair of a type name and an identifier that is carried more than once has one message, and
there are no others. The same pairs are reported, with as many objects each, in whatever order the
files are given. -/
theorem repeatedIds_exact (documents : List Document) :
    (∃ pairs : List (String × String),
      (∀ pair, pair ∈ pairs ↔ 2 ≤ (carriers documents pair).length) ∧
      pairs.Pairwise (fun p q => firstCarrier documents p < firstCarrier documents q) ∧
      List.Forall₂ (ReportsPair documents) pairs (repeatedIds documents)) ∧
    ∀ others, documents.Perm others → ∀ pair n,
      (∃ m ∈ repeatedIds others, ReportsPair others pair m ∧ m.related.length = n) ↔
        ∃ m ∈ repeatedIds documents, ReportsPair documents pair m ∧ m.related.length = n := by
  refine ⟨repeatedIds_forall₂ documents, fun others perm pair n => ?_⟩
  rw [reported_iff, reported_iff, length_carriers_perm perm]

/-- Two files with the same identifier, the other way round. -/
theorem repeatedIds_exact_swapped :
    let first := Document.parse "[Action] ID=dup;" "a.txt"
    let second := Document.parse "[Action] ID=dup;\n[Item] ID=dup;\n[Action] ID=;" "b.txt"
    [first, second].Perm [second, first] ∧
      ∃ m ∈ repeatedIds [second, first],
        ReportsPair [second, first] ("Action", "dup") m ∧ m.related.length = 2 := by
  intro first second
  have swapped : [first, second].Perm [second, first] := .swap _ _ _
  have carried : (carriers [first, second] ("Action", "dup")).length = 2 := by decide +kernel
  exact ⟨swapped, ((repeatedIds_exact [first, second]).2 _ swapped ("Action", "dup") 2).2
    (reported_iff.2 ⟨Nat.le_refl 2, carried⟩)⟩

end ModCheck
