import ModCheck.FileSystem.Tree

/-
  Where paths lead. The steps of a path alone decide where it leads, if anywhere (`locate_place`),
  and a path of names below another one adds these names to its steps and to the place
  (`components_below`, `locate_below`). Two paths with the same steps lead to the same place; the
  other way round this holds for paths that start alike and never go up
  (`components_of_place_append`).
-/

namespace ModCheck

open List

/-! ## Order -/

namespace Path

variable {name : String} {p q : Path} {ps found : List Path}

instance : Std.TransCmp Component.order :=
  inferInstanceAs (Std.TransCmp (compareLex (compareOn Component.rank) (compareOn Component.label)))

instance : Std.LawfulEqCmp Component.order where
  eq_of_compare {a b} h := by
    obtain ⟨rank, label⟩ := Ordering.then_eq_eq.1 h
    have hrank := Std.LawfulEqOrd.eq_of_compare rank
    have hlabel := Std.LawfulEqOrd.eq_of_compare label
    cases a <;> cases b <;> simp_all [Component.rank, Component.label]

theorem orderComponents_eq : orderComponents = List.compareLex Component.order := by
  funext as bs
  induction as generalizing bs with
  | nil => cases bs <;> rfl
  | cons a as ih =>
    cases bs with
    | nil => rfl
    | cons b bs =>
      rw [orderComponents, ih, List.compareLex_cons_cons]

theorem components_eq_of_order (h : p.order q = .eq) : p.components = q.components := by
  rw [order, orderComponents_eq] at h
  exact Std.LawfulEqCmp.eq_of_compare h

theorem order_of_components_eq (h : p.components = q.components) : p.order q = .eq := by
  rw [order, orderComponents_eq, h]
  exact Std.ReflCmp.compare_self

theorem order_gt_iff : p.order q = .gt ↔ q.order p = .lt := by
  rw [order, order, orderComponents_eq]
  exact Std.OrientedCmp.gt_iff_lt

theorem order_lt_trans {r : Path} (h : p.order q = .lt) (h' : q.order r = .lt) :
    p.order r = .lt := by
  rw [order, orderComponents_eq] at h h' ⊢
  exact Std.TransCmp.lt_trans h h'

/-- Paths in order, no two with the same steps. -/
def InOrder (ps : List Path) : Prop :=
  ps.Pairwise fun p q => p.order q = .lt

theorem InOrder.eq_of_components (h : InOrder ps) (hp : p ∈ ps) (hq : q ∈ ps)
    (e : p.components = q.components) : p = q := by
  have same := order_of_components_eq e
  induction ps with
  | nil => exact absurd hp not_mem_nil
  | cons r ps ih =>
    obtain ⟨first, rest⟩ := pairwise_cons.1 h
    rcases mem_cons.1 hp with hp | hp <;> rcases mem_cons.1 hq with hq | hq
    · exact hp.trans hq.symm
    · exact absurd (hp ▸ first q hq) (by simp [same])
    · exact absurd (order_gt_iff.2 (hq ▸ first p hp)) (by simp [same])
    · exact ih rest hp hq

theorem mem_insertInOrder (h : q ∈ p.insertInOrder ps) : q = p ∨ q ∈ ps := by
  induction ps with
  | nil => simpa [insertInOrder] using h
  | cons r ps ih =>
    rw [insertInOrder] at h
    split at h
    · exact mem_cons.1 h
    · exact .inr h
    · rcases mem_cons.1 h with rfl | h
      · exact .inr mem_cons_self
      · exact (ih h).imp_right (mem_cons_of_mem _)

theorem subset_insertInOrder (p : Path) (ps : List Path) : ps ⊆ p.insertInOrder ps := by
  induction ps with
  | nil => simp
  | cons r ps ih =>
    rw [insertInOrder]
    split
    · exact subset_cons_self _ _
    · exact List.Subset.refl _
    · exact cons_subset_cons _ ih

theorem exists_insertInOrder (p : Path) (ps : List Path) :
    ∃ q ∈ p.insertInOrder ps, q.components = p.components := by
  induction ps with
  | nil => exact ⟨p, mem_singleton.2 rfl, rfl⟩
  | cons r ps ih =>
    rw [insertInOrder]
    split
    · exact ⟨p, mem_cons_self, rfl⟩
    · next h => exact ⟨r, mem_cons_self, (components_eq_of_order h).symm⟩
    · obtain ⟨q, hq, e⟩ := ih
      exact ⟨q, mem_cons_of_mem _ hq, e⟩

theorem InOrder.insert (h : InOrder ps) (p : Path) : InOrder (p.insertInOrder ps) := by
  induction ps with
  | nil => exact pairwise_singleton _ _
  | cons r ps ih =>
    obtain ⟨first, rest⟩ := pairwise_cons.1 h
    rw [insertInOrder]
    split
    · next lt =>
      refine pairwise_cons.2 ⟨fun q hq => ?_, h⟩
      rcases mem_cons.1 hq with rfl | hq
      · exact lt
      · exact order_lt_trans lt (first q hq)
    · exact h
    · next gt =>
      refine pairwise_cons.2 ⟨fun q hq => ?_, ih rest⟩
      rcases mem_insertInOrder hq with rfl | hq
      · exact order_gt_iff.1 gt
      · exact first q hq

theorem inOrder_nil : InOrder [] :=
  .nil

/-- Paths put in order one after the other. -/
def insertAll : List Path → List Path → List Path :=
  List.foldl fun found p => p.insertInOrder found

/-- All paths come from those given, and for each of these there is one with its steps. -/
theorem InOrder.insertAll (h : InOrder found) (ps : List Path) :
    InOrder (insertAll found ps) ∧ found ⊆ Path.insertAll found ps ∧
      (∀ q ∈ Path.insertAll found ps, q ∈ found ∨ q ∈ ps) ∧
      ∀ p ∈ ps, ∃ q ∈ Path.insertAll found ps, q.components = p.components := by
  induction ps generalizing found with
  | nil => exact ⟨h, List.Subset.refl _, fun q hq => .inl hq, by simp⟩
  | cons p ps ih =>
    obtain ⟨ordered, kept, origin, all⟩ := ih (h.insert p)
    refine ⟨ordered, List.Subset.trans (subset_insertInOrder p found) kept, fun q hq => ?_,
      fun q hq => ?_⟩
    · rcases origin q hq with hq | hq
      · exact (mem_insertInOrder hq).elim (fun e => .inr (e ▸ mem_cons_self)) .inl
      · exact .inr (mem_cons_of_mem _ hq)
    · rcases mem_cons.1 hq with rfl | hq
      · obtain ⟨r, hr, e⟩ := exists_insertInOrder q found
        exact ⟨r, kept hr, e⟩
      · exact all q hq

/-! ## Steps -/

/-- A name that stands for itself in a path. -/
def Names (name : String) : Prop :=
  name ≠ "" ∧ name ≠ "." ∧ name ≠ ".." ∧ '/' ∉ name.toList

/-- The steps that the texts between slashes stand for. -/
def stepsOf (segments : List String) : List Component :=
  (segments.filter fun s => s != "" && s != ".").map fun s =>
    if s == ".." then .parent else .name s

/-- What a path starts with before its names: the root, a dot, or nothing. -/
def start (p : Path) : List Component :=
  if p.isAbsolute then [.root] else if p.segments.head? = some "." then [.current] else []

theorem stepsOf_append (as bs : List String) : stepsOf (as ++ bs) = stepsOf as ++ stepsOf bs := by
  simp [stepsOf]

theorem stepsOf_name (h : Names name) : stepsOf [name] = [.name name] := by
  obtain ⟨empty, dot, dots, -⟩ := h
  simp [stepsOf, empty, dot, dots]

theorem splitAtChar_ne_nil (c : Char) (cs : List Char) : splitAtChar c cs ≠ [] := by
  cases cs with
  | nil => simp [splitAtChar]
  | cons d ds =>
    rw [splitAtChar]
    split
    · simp
    · split <;> simp

theorem splitAtChar_append (c : Char) (as bs : List Char) :
    splitAtChar c (as ++ c :: bs) = splitAtChar c as ++ splitAtChar c bs := by
  induction as with
  | nil => simp [splitAtChar]
  | cons a as ih =>
    rw [cons_append, splitAtChar, splitAtChar, ih]
    split
    · rfl
    · cases h : splitAtChar c as with
      | nil => exact absurd h (splitAtChar_ne_nil c as)
      | cons part parts => rfl

theorem splitAtChar_of_not_mem {c : Char} {cs : List Char} (h : c ∉ cs) :
    splitAtChar c cs = [cs] := by
  induction cs with
  | nil => rfl
  | cons d ds ih =>
    obtain ⟨ne, rest⟩ := not_or.1 (mt mem_cons.2 h)
    rw [splitAtChar, ih rest, if_neg (by simpa using fun e => ne e.symm)]

theorem segments_ne_nil (p : Path) : p.segments ≠ [] := by
  simpa [segments] using splitAtChar_ne_nil '/' p.text.toList

theorem components_eq (p : Path) : p.components = p.start ++ stepsOf p.segments := by
  cases h : p.segments with
  | nil => exact absurd h p.segments_ne_nil
  | cons first rest =>
    rw [components, start, h]
    dsimp only
    split
    · next absolute =>
      have first_eq : first = "" := by
        rw [isAbsolute] at absolute
        cases text : p.text.toList with
        | nil => simp [text] at absolute
        | cons c cs =>
          rw [text] at absolute
          obtain rfl : c = '/' := by simpa using absolute
          rw [segments, text] at h
          simpa using (cons.inj h).1.symm
      simp [stepsOf, first_eq]
    · simp only [head?_cons, Option.some.injEq, beq_iff_eq]
      split
      · next dot => simp [stepsOf, dot]
      · simp [stepsOf]

/-- A name below a path replaces a slash at its end, or follows the last of its segments. -/
theorem segments_child {base : Path} (hb : base.text ≠ "") (hn : Names name) :
    ∃ kept, kept ≠ [] ∧ base.segments ∈ [kept, kept ++ [""]] ∧
      (base.child name).segments = kept ++ [name] ∧
      (base.child name).isAbsolute = base.isAbsolute ∧ (base.child name).text ≠ "" := by
  obtain ⟨empty, -, -, slash⟩ := hn
  have text_ne : base.text.toList ≠ [] := by simpa using hb
  have relative : (Path.mk name).isAbsolute = false := by
    cases h : name.toList with
    | nil => exact absurd (String.toList_eq_nil_iff.1 h) empty
    | cons c cs =>
      rw [h] at slash
      simpa [isAbsolute, h] using fun e : c = '/' => slash (e ▸ mem_cons_self)
  have split_name : splitAtChar '/' name.toList = [name.toList] := splitAtChar_of_not_mem slash
  have absolute (text : String) :
      (Path.mk (base.text ++ text)).isAbsolute = base.isAbsolute := by
    obtain ⟨c, cs, e⟩ := exists_cons_of_ne_nil text_ne
    simp [isAbsolute, e]
  rw [child, join, if_neg (by simp [relative])]
  by_cases ends : base.text.toList.getLast? = some '/'
  · obtain ⟨before, e⟩ := getLast?_eq_some_iff.1 ends
    rw [if_pos (by simp [ends])]
    refine ⟨(splitAtChar '/' before).map String.ofList, by simpa using splitAtChar_ne_nil _ _,
      ?_, ?_, absolute name, by simp [hb]⟩
    · simp [segments, e, splitAtChar_append, splitAtChar]
    · simp [segments, e, splitAtChar_append, split_name]
  · rw [if_neg (by simp [ends, hb])]
    refine ⟨base.segments, base.segments_ne_nil, mem_cons_self, ?_, ?_, by simp⟩
    · have text : (base.text ++ "/" ++ name).toList = base.text.toList ++ '/' :: name.toList := by
        simp
      rw [segments, text, splitAtChar_append, split_name]
      simp [segments]
    · rw [String.append_assoc]
      exact absolute _

theorem components_child {base : Path} (hb : base.text ≠ "") (hn : Names name) :
    (base.child name).components = base.components ++ [.name name] := by
  obtain ⟨kept, ne, split, child, absolute, -⟩ := segments_child hb hn
  obtain ⟨first, rest, rfl⟩ := exists_cons_of_ne_nil ne
  simp only [mem_cons, not_mem_nil, or_false] at split
  have heads : (base.child name).start = base.start := by
    rw [start, start, absolute, child]
    rcases split with e | e <;> rw [e] <;> rfl
  have steps : stepsOf base.segments = stepsOf (first :: rest) := by
    rcases split with e | e
    · rw [e]
    · rw [e, stepsOf_append]
      exact append_nil _
  rw [components_eq, components_eq, heads, child, stepsOf_append, stepsOf_name hn, steps,
    append_assoc]

theorem components_below {base : Path} {names : List String} (hb : base.text ≠ "")
    (hn : ∀ name ∈ names, Names name) :
    (base.below names).components = base.components ++ names.map .name := by
  induction names generalizing base with
  | nil => simp [below]
  | cons name names ih =>
    have first := hn name mem_cons_self
    obtain ⟨_, -, -, -, -, child⟩ := segments_child hb first
    have rest := ih child fun n h => hn n (mem_cons_of_mem _ h)
    rw [below] at rest ⊢
    rw [foldl_cons, rest, components_child hb first, append_assoc]
    rfl

end Path

/-! ## Places -/

/-- Where a step leads from a place. -/
def Path.Component.walk (here : List String) : Path.Component → List String
  | .root => []
  | .current => here
  | .parent => here.dropLast
  | .name text => here ++ [text]

/-- Where a path leads if there is something. -/
def Path.place (current : List String) (p : Path) : List String :=
  p.components.foldl Path.Component.walk current

namespace FileTree

open ModCheck.Path (Names stepsOf Component)

variable {root t : FileTree} {current here : List String} {p q base : Path}

/-- A tree in which every name stands for itself and no two entries of a directory have the same. -/
inductive Proper : FileTree → Prop where
  | file (text : Option String) : Proper (.file text)
  | directory {entries : List (String × FileTree)} (distinct : (entries.map Prod.fst).Nodup)
      (names : ∀ e ∈ entries, Names e.1) (trees : ∀ e ∈ entries, Proper e.2) :
      Proper (.directory entries)

theorem get?_append (root : FileTree) (as bs : List String) :
    root.get? (as ++ bs) = (root.get? as).bind (·.get? bs) := by
  induction as generalizing root with
  | nil => simp [get?]
  | cons a as ih =>
    cases root with
    | file text => simp [get?]
    | directory entries =>
      rw [cons_append, get?, get?]
      cases entries.lookup a with
      | none => rfl
      | some t => exact ih t

/-- A step of a path leads where the steps it stands for lead. -/
theorem walkStep_eq {segment : String} {next : List String}
    (h : root.walkStep here segment = .ok next) :
    next = (stepsOf [segment]).foldl Component.walk here := by
  unfold walkStep at h
  split at h
  · cases h
  · cases h
  · split at h
    · next filler =>
      have none : stepsOf [segment] = [] := by
        rcases Bool.or_eq_true_iff.1 filler with e | e <;> rw [eq_of_beq e] <;> rfl
      rw [none]
      exact (Except.ok.inj h).symm
    · next filler =>
      simp only [Bool.or_eq_true, beq_iff_eq, not_or] at filler
      split at h
      · next dots =>
        rw [eq_of_beq dots]
        exact (Except.ok.inj h).symm
      · next dots =>
        have one : stepsOf [segment] = [.name segment] := by
          simp [stepsOf, filler, show segment ≠ ".." by simpa using dots]
        split at h
        · rw [one]
          exact (Except.ok.inj h).symm
        · cases h

theorem walk_eq {segments next : List String}
    (h : segments.foldlM (root.walkStep) here = .ok next) :
    next = (stepsOf segments).foldl Component.walk here := by
  induction segments generalizing here with
  | nil => exact (Except.ok.inj h).symm
  | cons segment segments ih =>
    rw [foldlM_cons] at h
    cases step : root.walkStep here segment with
    | error cause => rw [step] at h; cases h
    | ok between =>
      rw [step] at h
      rw [ih h, walkStep_eq step, ← foldl_append, ← Path.stepsOf_append]
      rfl

/-- The steps of a path decide where it leads. -/
theorem locate_place (h : root.locate current p = .ok here) : here = p.place current := by
  rw [locate] at h
  split at h
  · cases h
  · rw [walk_eq h, Path.place, Path.components_eq, Path.start]
    split
    · rfl
    · split <;> rfl

theorem text_ne_of_locate (h : root.locate current p = .ok here) : p.text ≠ "" := by
  rintro e
  simp [locate, e] at h

/-- A name below a path is looked up where the path leads. -/
theorem locate_child {name : String} (hn : Names name) (h : root.locate current base = .ok here) :
    root.locate current (base.child name) = root.walkStep here name := by
  have hb := text_ne_of_locate h
  obtain ⟨kept, -, split, child, absolute, text⟩ := Path.segments_child hb hn
  rw [locate, if_neg (by simpa using hb)] at h
  rw [locate, if_neg (by simpa using text), child, absolute, foldlM_append]
  suffices kept.foldlM root.walkStep (if base.isAbsolute then [] else current) = .ok here by
    rw [this]
    exact bind_pure (root.walkStep here name)
  simp only [mem_cons, not_mem_nil, or_false] at split
  rcases split with e | e
  · rwa [e] at h
  · rw [e, foldlM_append] at h
    cases walked : kept.foldlM root.walkStep (if base.isAbsolute then [] else current) with
    | error cause => rw [walked] at h; cases h
    | ok between =>
      rw [walked] at h
      have last : root.walkStep between "" = .ok here :=
        (bind_pure (root.walkStep between "")).symm.trans h
      rw [walkStep_eq last]
      rfl

theorem locate_below {names : List String} (hn : ∀ name ∈ names, Names name)
    (h : root.locate current base = .ok here) (found : root.get? (here ++ names) = some t) :
    root.locate current (base.below names) = .ok (here ++ names) := by
  induction names generalizing base here with
  | nil => simpa [Path.below] using h
  | cons name names ih =>
    have first := hn name mem_cons_self
    have step : root.walkStep here name = .ok (here ++ [name]) := by
      obtain ⟨empty, dot, dots, -⟩ := first
      rw [get?_append] at found
      obtain ⟨at_, below, got⟩ := Option.bind_eq_some_iff.1 found
      cases at_ with
      | file text => simp [get?] at got
      | directory entries =>
        have inside : (entries.lookup name).isSome := by
          rw [get?] at got
          cases e : entries.lookup name with
          | none => simp [e] at got
          | some u => rfl
        simp [walkStep, below, empty, dot, dots, inside]
    have child := (locate_child first h).trans step
    have rest := ih (fun n hm => hn n (mem_cons_of_mem _ hm)) child
      (by rwa [append_assoc])
    rwa [append_assoc] at rest

end FileTree

/-! ## Paths that are written alike -/

namespace Path

variable {a b p : Path} {current names : List String}

theorem walk_names (here names : List String) :
    (names.map Component.name).foldl Component.walk here = here ++ names := by
  induction names generalizing here with
  | nil => simp
  | cons name names ih => simp [ih, Component.walk]

/-- A path that never goes up is its start with names behind it. -/
theorem exists_names (h : .parent ∉ p.components) :
    ∃ names, p.components = p.start ++ names.map .name ∧
      ∀ current, p.place current = p.start.foldl Component.walk current ++ names := by
  rw [components_eq] at h
  have plain : stepsOf p.segments =
      (p.segments.filter fun s => s != "" && s != ".").map .name := by
    refine map_congr_left fun s hs => if_neg fun dots => h ?_
    refine mem_append_right _ (mem_map.2 ⟨s, hs, ?_⟩)
    rw [if_pos dots]
  refine ⟨_, (components_eq p).trans (by rw [plain]), fun current => ?_⟩
  rw [place, components_eq, plain, foldl_append, walk_names]

theorem components_of_place_append (ha : .parent ∉ a.components) (hb : .parent ∉ b.components)
    (hs : a.start = b.start) (h : b.place current = a.place current ++ names) :
    b.components = a.components ++ names.map .name := by
  obtain ⟨as, ea, pa⟩ := exists_names ha
  obtain ⟨bs, eb, pb⟩ := exists_names hb
  rw [pa, pb, hs, append_assoc] at h
  rw [ea, eb, hs, append_cancel_left h, map_append, append_assoc]

end Path

end ModCheck
