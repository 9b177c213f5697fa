import Mathlib.Data.List.Nodup
import ModCheck.Command
import ModCheck.Proofs.PathPlaces
import ModCheck.Proofs.RepeatedIds

/-
  Files that are named more than once. The files to check are kept in order, and of two paths with
  the same steps only one is kept; that two paths with different steps lead to the same file is not
  seen. So a file is found once unless it is taken for two of the given paths, one of which is not
  spelled as the other with names behind it (`files_found_once_iff`). In this case its text is
  checked once, and its corrections are made once.
-/

namespace ModCheck

open List
open ModCheck.Path (Names)
open FileSelection (isExcluded)

theorem run_bind_of {σ α β : Type} {x : StateM σ α} {f : α → StateM σ β} {state state' : σ} {a : α}
    (h : x.run state = (a, state')) : (x >>= f).run state = (f a).run state' := by
  rw [StateT.run_bind, h]
  rfl

/-! ## What is inside a directory -/

namespace FileTree

theorem lookup_of_mem {entries : List (String × FileTree)} {name : String} {t : FileTree}
    (distinct : (entries.map Prod.fst).Nodup) (h : (name, t) ∈ entries) :
    entries.lookup name = some t := by
  induction entries with
  | nil => cases h
  | cons e entries ih =>
    obtain ⟨absent, rest⟩ := nodup_cons.1 distinct
    rcases mem_cons.1 h with rfl | h
    · simp
    · have ne : name ≠ e.1 := fun same => absent (mem_map.2 ⟨_, h, same⟩)
      rw [lookup_cons, beq_false_of_ne ne]
      exact ih rest h

theorem mem_of_lookup {entries : List (String × FileTree)} {name : String} {t : FileTree}
    (h : entries.lookup name = some t) : (name, t) ∈ entries := by
  obtain ⟨before, after, e, -⟩ := lookup_eq_some_iff.1 h
  simp [e]

mutual

/-- Inside a directory is what names lead to. -/
theorem mem_inside {t : FileTree} (h : t.Proper) {e : FileEntry} :
    e ∈ t.inside ↔ e.names ≠ [] ∧ ∃ u, t.get? e.names = some u ∧ u.kind = e.kind := by
  match t, h with
  | .file text, _ =>
    rw [inside]
    cases names : e.names <;> simp [get?]
  | .directory entries, .directory distinct names trees =>
    rw [inside, mem_insideEntries trees]
    constructor
    · rintro ⟨⟨name, t⟩, ht, rest, u, e, found, kind⟩
      refine ⟨by simp [e], u, ?_, kind⟩
      rw [e, get?, lookup_of_mem distinct ht]
      exact found
    · rintro ⟨ne, u, found, kind⟩
      obtain ⟨name, rest, e⟩ := exists_cons_of_ne_nil ne
      rw [e, get?] at found
      cases ht : entries.lookup name with
      | none => simp [ht] at found
      | some t => exact ⟨(name, t), mem_of_lookup ht, rest, u, e, by simpa [ht] using found, kind⟩

theorem mem_insideEntries {entries : List (String × FileTree)} (h : ∀ t ∈ entries, t.2.Proper)
    {e : FileEntry} :
    e ∈ insideEntries entries ↔
      ∃ t ∈ entries, ∃ rest u, e.names = t.1 :: rest ∧ t.2.get? rest = some u ∧
        u.kind = e.kind := by
  match entries with
  | [] => simp [insideEntries]
  | (name, t) :: entries =>
    have own : (e = ⟨[name], t.kind⟩ ∨ ∃ e' ∈ t.inside, ⟨name :: e'.names, e'.kind⟩ = e) ↔
        ∃ rest u, e.names = name :: rest ∧ t.get? rest = some u ∧ u.kind = e.kind := by
      have inside (e' : FileEntry) := mem_inside (h (name, t) mem_cons_self) (e := e')
      constructor
      · rintro (rfl | ⟨e', he, rfl⟩)
        · exact ⟨[], t, rfl, by simp [get?], rfl⟩
        · obtain ⟨-, u, found, kind⟩ := (inside e').1 he
          exact ⟨e'.names, u, rfl, found, kind⟩
      · obtain ⟨names, kind⟩ := e
        rintro ⟨rest, u, rfl, found, rfl⟩
        cases rest with
        | nil =>
          obtain rfl : t = u := by simpa [get?] using found
          exact .inl rfl
        | cons first rest =>
          exact .inr ⟨⟨first :: rest, u.kind⟩, (inside _).2 ⟨by simp, u, found, rfl⟩, rfl⟩
    have others := mem_insideEntries (fun u hu => h u (mem_cons_of_mem _ hu)) (e := e)
    simp only [insideEntries, cons_append, mem_cons, mem_append, mem_map,
      ← or_assoc, own, others, exists_eq_or_imp]

end

theorem Proper.get? {t u : FileTree} (h : t.Proper) {names : List String}
    (found : t.get? names = some u) : u.Proper ∧ ∀ name ∈ names, Names name := by
  induction names generalizing t with
  | nil =>
    obtain rfl : t = u := by simpa [FileTree.get?] using found
    exact ⟨h, by simp⟩
  | cons name names ih =>
    cases h with
    | file text => simp [FileTree.get?] at found
    | @directory entries distinct proper trees =>
      rw [FileTree.get?] at found
      cases ht : entries.lookup name with
      | none => simp [ht] at found
      | some t =>
        have mem := mem_of_lookup ht
        obtain ⟨inner, rest⟩ := ih (trees _ mem) (by simpa [ht] using found)
        exact ⟨inner, forall_mem_cons.2 ⟨proper _ mem, rest⟩⟩

variable {root t : FileTree} {current : List String} {p : Path}

theorem at?_eq_ok_iff :
    root.at? current p = .ok t ↔
      ∃ here, root.locate current p = .ok here ∧ root.get? here = some t := by
  rw [at?]
  cases root.locate current p with
  | error cause => simp
  | ok here => cases h : root.get? here <;> simp [h]

theorem exists_of_kind_file (h : t.kind = .file) : ∃ text, t = .file text := by
  cases t with
  | file text => exact ⟨text, rfl⟩
  | directory entries => cases h

end FileTree

/-! ## What is taken for a path -/

/-- A search for files in a tree, with the exclusions that the selection stands for. -/
structure Search where
  selection : FileSelection
  globs : PatternLanguage
  exclusions : List (String → Bool)
  parsed : selection.exclusions globs = .ok exclusions
  root : FileTree
  proper : root.Proper
  current : List String

namespace Search

variable {search : Search} {t : FileTree} {here names : List String} {a b p : Path}
  {files paths : List Path}

/-- Where a path leads. -/
def locate (search : Search) : Path → Except IoCause (List String) :=
  search.root.locate search.current

/-- A path leads to `here`, and the file behind `names` from there is taken for it: the file itself,
or one below the directory that has the right extension and is not excluded. -/
structure Takes (search : Search) (a : Path) (here names : List String) : Prop where
  located : search.locate a = .ok here
  isFile : ∃ text, search.root.get? (here ++ names) = some (.file text)
  chosen : names = [] ∨ (search.selection.hasExtension (a.below names) = true ∧
    isExcluded search.exclusions (a.below names) (.ofSegments names) = false)

/-- The files that are taken for a path to something. -/
def taken (search : Search) (a : Path) : List Path :=
  match search.root.at? search.current a with
  | .error _ => []
  | .ok (.file _) => [a]
  | .ok (.directory entries) =>
    ((FileTree.directory entries).inside.filter fun e =>
      e.kind == .file && search.selection.hasExtension (a.below e.names)
        && !isExcluded search.exclusions (a.below e.names) (.ofSegments e.names)).map fun e =>
      a.below e.names

theorem mem_taken :
    p ∈ search.taken a ↔ ∃ here names, search.Takes a here names ∧ p = a.below names := by
  constructor
  · intro h
    rw [taken] at h
    split at h
    · simp at h
    · next text found =>
      obtain ⟨here, located, got⟩ := FileTree.at?_eq_ok_iff.1 found
      exact ⟨here, [], ⟨located, ⟨text, by simpa using got⟩, .inl rfl⟩, mem_singleton.1 h⟩
    · next entries found =>
      obtain ⟨here, located, got⟩ := FileTree.at?_eq_ok_iff.1 found
      obtain ⟨e, he, rfl⟩ := mem_map.1 h
      obtain ⟨inside, chosen⟩ := mem_filter.1 he
      simp only [Bool.and_eq_true, beq_iff_eq, Bool.not_eq_true'] at chosen
      obtain ⟨-, u, below, kind⟩ := (FileTree.mem_inside (search.proper.get? got).1).1 inside
      obtain ⟨text, rfl⟩ := FileTree.exists_of_kind_file (kind.trans chosen.1.1)
      refine ⟨here, e.names, ⟨located, ⟨text, ?_⟩, .inr ⟨chosen.1.2, chosen.2⟩⟩, rfl⟩
      rw [FileTree.get?_append, got]
      exact below
  · rintro ⟨here, names, ⟨located, ⟨text, isFile⟩, chosen⟩, rfl⟩
    rw [FileTree.get?_append] at isFile
    obtain ⟨t, got, below⟩ := Option.bind_eq_some_iff.1 isFile
    rw [taken, FileTree.at?_eq_ok_iff.2 ⟨here, located, got⟩]
    cases t with
    | file content =>
      cases names with
      | nil => exact mem_singleton.2 rfl
      | cons name names => simp [FileTree.get?] at below
    | directory entries =>
      have ne : names ≠ [] := by
        rintro rfl
        simp [FileTree.get?] at below
      obtain ⟨extension, included⟩ := chosen.resolve_left ne
      refine mem_map.2 ⟨⟨names, .file⟩, mem_filter.2 ⟨?_, ?_⟩, rfl⟩
      · exact (FileTree.mem_inside (search.proper.get? got).1).2 ⟨ne, _, below, rfl⟩
      · simp [extension, included]

/-! ## A run -/

theorem run_forPath (h : (search.root.at? search.current a).isOk = true) :
    (search.selection.forPath (FileTree.fileSystem search.current) search.exclusions a).run
      search.root = (.ok (search.taken a), search.root) := by
  rcases found : search.root.at? search.current a with cause | t
  · simp [found, Except.toBool] at h
  · cases t <;>
      simp [FileSelection.forPath, FileSelection.inDirectory, FileTree.fileSystem,
        FileTree.entriesAt, FileTree.kind, taken, found, Except.toOption] <;> rfl

theorem run_forPaths (h : ∀ a ∈ paths, (search.root.at? search.current a).isOk = true)
    (found : List Path) :
    (search.selection.forPaths (FileTree.fileSystem search.current) search.exclusions found
      paths).run search.root =
        (.ok (Path.insertAll found (paths.flatMap search.taken)), search.root) := by
  induction paths generalizing found with
  | nil => rfl
  | cons a paths ih =>
    obtain ⟨first, rest⟩ := forall_mem_cons.1 h
    rw [FileSelection.forPaths, run_bind_of (run_forPath first), flatMap_cons, Path.insertAll,
      foldl_append]
    exact ih rest _

/-- The files found for paths: in order, exactly those that are taken for one of them. -/
structure Finds (search : Search) (paths files : List Path) : Prop where
  ordered : Path.InOrder files
  origin : ∀ p ∈ files, ∃ a ∈ paths, ∃ here names, search.Takes a here names ∧ p = a.below names
  complete : ∀ a ∈ paths, ∀ here names, search.Takes a here names →
    ∃ p ∈ files, p.components = (a.below names).components

theorem exists_finds (exist : ∀ a ∈ paths, (search.root.at? search.current a).isOk = true) :
    ∃ files, (search.selection.find search.globs (FileTree.fileSystem search.current) paths).run
        search.root = (.ok files, search.root) ∧ search.Finds paths files := by
  obtain ⟨ordered, -, origin, complete⟩ := Path.inOrder_nil.insertAll (paths.flatMap search.taken)
  refine ⟨_, ?_, ordered, fun p hp => ?_, fun a ha here names takes => ?_⟩
  · rw [FileSelection.find, search.parsed]
    exact run_forPaths exist []
  · obtain ⟨a, ha, h⟩ := mem_flatMap.1 ((origin p hp).resolve_left not_mem_nil)
    exact ⟨a, ha, mem_taken.1 h⟩
  · exact complete _ (mem_flatMap.2 ⟨a, ha, mem_taken.2 ⟨here, names, takes, rfl⟩⟩)

/-! ## Files that are found once -/

theorem Takes.below (h : search.Takes a here names) :
    search.locate (a.below names) = .ok (here ++ names) ∧
      (a.below names).components = a.components ++ names.map .name := by
  obtain ⟨text, isFile⟩ := h.isFile
  have plain : ∀ name ∈ names, Names name := fun name hn =>
    (search.proper.get? isFile).2 name (mem_append_right _ hn)
  exact ⟨FileTree.locate_below plain h.located isFile,
    Path.components_below (FileTree.text_ne_of_locate h.located) plain⟩

/-- Wherever a file is taken for two paths, the one that leads further down is spelled as the other
with the names between behind it. -/
def SpelledAlike (search : Search) (paths : List Path) : Prop :=
  ∀ a ∈ paths, ∀ b ∈ paths, ∀ here names rest,
    search.Takes a here (names ++ rest) → search.Takes b (here ++ names) rest →
    b.components = a.components ++ names.map .name

theorem spelledAlike_of_start
    (h : ∀ a ∈ paths, .parent ∉ a.components ∧ ∀ b ∈ paths, a.start = b.start) :
    search.SpelledAlike paths := by
  intro a ha b hb here names rest takes further
  have place := FileTree.locate_place further.located
  rw [FileTree.locate_place takes.located] at place
  exact Path.components_of_place_append (h a ha).1 (h b hb).1 ((h a ha).2 b hb) place.symm

/-- Two files at one place that are taken for paths spelled alike are one file. -/
theorem Finds.eq_of_alike (h : search.Finds paths files) (alike : search.SpelledAlike paths)
    {rest : List String} (ha : a ∈ paths) (hb : b ∈ paths)
    (takes : search.Takes a here (names ++ rest)) (further : search.Takes b (here ++ names) rest)
    (hp : a.below (names ++ rest) ∈ files) (hq : b.below rest ∈ files) :
    a.below (names ++ rest) = b.below rest := by
  refine h.ordered.eq_of_components hp hq ?_
  rw [takes.below.2, further.below.2, alike a ha b hb here names rest takes further,
    map_append, append_assoc]

theorem Finds.nodup_iff (h : search.Finds paths files) :
    (files.map search.locate).Nodup ↔ search.SpelledAlike paths := by
  constructor
  · intro once a ha b hb here names rest takes further
    obtain ⟨p, hp, ep⟩ := h.complete a ha here _ takes
    obtain ⟨q, hq, eq⟩ := h.complete b hb _ rest further
    have located {r s : Path} (hr : r ∈ files) (e : r.components = s.components) {place}
        (hs : search.locate s = .ok place) : search.locate r = .ok place := by
      obtain ⟨c, -, here, names, takes, rfl⟩ := h.origin r hr
      have found := takes.below.1
      rw [found, FileTree.locate_place found, FileTree.locate_place hs, Path.place, Path.place, e]
    have same : p = q := by
      refine inj_on_of_nodup_map once hp hq ?_
      rw [located hp ep takes.below.1, located hq eq further.below.1, append_assoc]
    rw [same, eq, takes.below.2, further.below.2, map_append, ← append_assoc] at ep
    exact append_cancel_right ep
  · intro alike
    have distinct : files.Nodup := h.ordered.imp fun lt e => by
      rw [e, Path.order_of_components_eq rfl] at lt
      cases lt
    refine distinct.map_on fun p hp q hq same => ?_
    obtain ⟨a, ha, here, names, takes, rfl⟩ := h.origin p hp
    obtain ⟨b, hb, there, rest, further, rfl⟩ := h.origin q hq
    rw [takes.below.1, further.below.1] at same
    rcases append_eq_append_iff.1 (Except.ok.inj same) with
      ⟨between, rfl, rfl⟩ | ⟨between, rfl, rfl⟩
    · exact h.eq_of_alike alike ha hb takes further hp hq
    · exact (h.eq_of_alike alike hb ha further takes hq hp).symm

end Search

/-! ## Texts that are checked once -/

section

variable {root root' : FileTree} {current : List String} {files : List Path}
  {sources : List SourceFile} {p q : Path}

/-- The texts at paths. -/
def sourcesAt (root : FileTree) (current : List String) (files : List Path) : List SourceFile :=
  files.filterMap fun p => (root.read current p).toOption.map (SourceFile.mk p.text)

/-- The object with a number in the file at a place. -/
def ObjectAt (root : FileTree) (current : List String) (sources : List SourceFile)
    (spot : List String × Nat) (o : Object) : Prop :=
  ∃ s ∈ sources, root.locate current ⟨s.file⟩ = .ok spot.1 ∧
    (Document.parse s.source s.file).objects[spot.2]? = some o

theorem run_filterMapM {σ α β : Type} {f : α → StateM σ (Option β)} {g : α → Option β} {state : σ}
    (h : ∀ a, (f a).run state = (g a, state)) (as : List α) :
    (as.filterMapM f).run state = (as.filterMap g, state) := by
  induction as with
  | nil => rfl
  | cons a as ih =>
    rw [filterMapM_cons, run_bind_of (h a), filterMap_cons]
    cases g a with
    | none => exact ih
    | some b => exact run_bind_of ih

theorem run_readSources (root : FileTree) (current : List String) (files : List Path) :
    (Command.readSources (FileTree.fileSystem current) files).run root =
      (sourcesAt root current files, root) := by
  refine run_filterMapM (fun p => ?_) files
  cases h : root.read current p <;> simp [FileTree.fileSystem, h] <;> rfl

theorem read_of_mem_sourcesAt {s : SourceFile} (h : s ∈ sourcesAt root current files) :
    root.read current ⟨s.file⟩ = .ok s.source := by
  obtain ⟨p, -, found⟩ := mem_filterMap.1 h
  cases read : root.read current p with
  | error cause => simp [read, Except.toOption] at found
  | ok text =>
    obtain rfl : SourceFile.mk p.text text = s := by simpa [read, Except.toOption] using found
    exact read

theorem nodup_sourcesAt (h : (files.map (root.locate current)).Nodup) :
    ((sourcesAt root current files).map fun s => root.locate current ⟨s.file⟩).Nodup := by
  have part : ((sourcesAt root current files).map fun s => root.locate current ⟨s.file⟩).Sublist
      (files.map (root.locate current)) := by
    induction files with
    | nil => exact List.Sublist.refl _
    | cons p files ih =>
      have rest := ih (nodup_cons.1 h).2
      rw [sourcesAt, filterMap_cons]
      cases root.read current p with
      | error cause => exact rest.cons _
      | ok text => exact rest.cons_cons _
  exact h.sublist part

theorem locate_of_read {text : String} (h : root.read current p = .ok text) :
    ∃ here, root.locate current p = .ok here ∧ root.get? here = some (.file (some text)) := by
  rw [FileTree.read] at h
  split at h <;> simp_all
  next found => exact FileTree.at?_eq_ok_iff.1 found

/-- The objects that carry a pair stand at different places of the tree if the texts do. -/
theorem carriers_spots (located : ∀ s ∈ sources, ∃ here, root.locate current ⟨s.file⟩ = .ok here)
    (once : (sources.map fun s => root.locate current ⟨s.file⟩).Nodup) (schema : Schema)
    (options : Options) (pair : String × String) :
    ∃ spots, spots.Nodup ∧ List.Forall₂ (ObjectAt root current sources) spots
      (carriers (sources.map (checkFile schema options)) pair) := by
  let spotted (s : SourceFile) : List ((List String × Nat) × Object) :=
    (Document.parse s.source s.file).objects.zipIdx.map fun x =>
      ((Path.place current ⟨s.file⟩, x.2), x.1)
  have objects : (sources.flatMap spotted).map Prod.snd =
      allObjects (sources.map (checkFile schema options)) := by
    rw [allObjects, map_flatMap, flatMap_map]
    simp [spotted, Function.comp_def, checkFile]
  have places : ((sources.flatMap spotted).map Prod.fst).Nodup := by
    rw [map_flatMap, nodup_flatMap]
    refine ⟨fun s _ => ?_, (pairwise_map.1 once).imp_of_mem fun {s t} hs ht ne => ?_⟩
    · have numbers : (spotted s).map Prod.fst =
          ((Document.parse s.source s.file).objects.zipIdx.map Prod.snd).map
            (Prod.mk (Path.place current ⟨s.file⟩)) := by
        simp only [spotted, map_map]
        rfl
      rw [numbers, zipIdx_map_snd]
      exact (nodup_range' ..).map fun i j e => (Prod.mk.inj e).2
    · intro spot left right
      obtain ⟨hs, hs'⟩ := located s hs
      obtain ⟨ht, ht'⟩ := located t ht
      simp only [spotted, map_map, mem_map] at left right
      obtain ⟨x, -, rfl⟩ := left
      obtain ⟨y, -, e⟩ := right
      rw [hs', ht', FileTree.locate_place hs', FileTree.locate_place ht'] at ne
      exact ne (congrArg Except.ok (Prod.mk.inj e).1.symm)
  refine ⟨((sources.flatMap spotted).filter fun x => x.2.carries pair).map Prod.fst,
    places.sublist (filter_sublist.map _), ?_⟩
  have carried : carriers (sources.map (checkFile schema options)) pair =
      ((sources.flatMap spotted).filter fun x => x.2.carries pair).map Prod.snd := by
    rw [carriers, ← objects, filter_map]
    rfl
  rw [carried, forall₂_map_left_iff, forall₂_map_right_iff, forall₂_same]
  intro x hx
  obtain ⟨s, hs, mem⟩ := mem_flatMap.1 (mem_filter.1 hx).1
  obtain ⟨⟨o, i⟩, ho, rfl⟩ := mem_map.1 mem
  obtain ⟨here, found⟩ := located s hs
  exact ⟨s, hs, by rw [found, FileTree.locate_place found],
    by simpa using mem_zipIdx_iff_getElem?.1 ho⟩

/-! ## Corrections that are made once -/

namespace FileTree

/-- The text of a file; none for a directory. -/
def contents : FileTree → Option (Option String)
  | .file text => some text
  | .directory _ => none

/-- Two trees with files and directories at the same places. -/
def SameShape (root root' : FileTree) : Prop :=
  ∀ names, (root'.get? names).map kind = (root.get? names).map kind

theorem lookup_cons_eq (e : String × FileTree) (entries : List (String × FileTree))
    (name : String) :
    (e :: entries).lookup name = if name = e.1 then some e.2 else entries.lookup name := by
  by_cases h : name = e.1
  · rw [lookup_cons, beq_iff_eq.2 h, if_pos h]
  · rw [lookup_cons, beq_false_of_ne h, if_neg h]

theorem lookup_setEntry (entries : List (String × FileTree)) (name other : String) (t : FileTree) :
    (setEntry entries name t).lookup other =
      if other = name then some t else entries.lookup other := by
  have replaced (es : List (String × FileTree)) :
      (es.map fun e => if e.1 == name then (name, t) else e).lookup other =
        if other = name then if es.any (·.1 == name) then some t else none
        else es.lookup other := by
    induction es with
    | nil => simp
    | cons e es ih =>
      rw [map_cons, lookup_cons_eq, lookup_cons_eq, ih, any_cons]
      by_cases he : e.1 = name <;> by_cases ho : other = name
      · simp [he, ho]
      · simp [he, ho]
      · rw [beq_false_of_ne he, Bool.false_or]
        simp [ho, Ne.symm he]
      · simp [he, ho]
  rw [setEntry]
  split
  · next present => rw [replaced, if_pos present]
  · next absent =>
    rw [lookup_append, lookup_cons_eq]
    by_cases ho : other = name
    · have none : entries.lookup name = none := by
        refine lookup_eq_none_iff.2 fun e he => ?_
        have ne : e.1 ≠ name := fun same => absent (any_eq_true.2 ⟨e, he, by simpa using same⟩)
        simpa using ne.symm
      simp [ho, none]
    · simp [ho]

theorem contents_set {names : List String} {old new : Option String}
    (h : root.get? names = some (.file old)) (other : List String) :
    ((root.set names (.file new)).get? other).map contents =
      if other = names then some (some new) else (root.get? other).map contents := by
  induction names generalizing root other with
  | nil =>
    obtain rfl : root = .file old := by simpa [get?] using h
    cases other <;> simp [set, get?, contents]
  | cons name names ih =>
    cases root with
    | file text => simp [get?] at h
    | directory entries =>
      rw [get?] at h
      cases found : entries.lookup name with
      | none => simp [found] at h
      | some t =>
        rw [found] at h
        cases other with
        | nil => simp [set, get?, contents]
        | cons x other =>
          rw [set, get?, lookup_setEntry, get?]
          by_cases e : x = name
          · subst e
            simpa [found] using ih h other
          · simp [e]

theorem sameShape_set {names : List String} {old new : Option String}
    (h : root.get? names = some (.file old)) : SameShape root (root.set names (.file new)) := by
  intro other
  have kinds (t : Option FileTree) : t.map kind =
      (t.map contents).map fun c => if c.isSome then .file else .directory := by
    rcases t with - | - | - <;> rfl
  rw [kinds, kinds, contents_set h]
  split
  · next e =>
    rw [e, h]
    rfl
  · rfl

theorem SameShape.walkStep_eq (h : SameShape root root') : root'.walkStep = root.walkStep := by
  funext here segment
  have at_ := h here
  have below := h (here ++ [segment])
  rw [get?_append, get?_append] at below
  unfold walkStep
  cases e : root.get? here with
  | none =>
    rw [e] at at_
    rw [Option.map_eq_none_iff.1 at_]
  | some t =>
    rw [e] at at_ below
    obtain ⟨t', e', kinds⟩ := Option.map_eq_some_iff.1 at_
    rw [e'] at below ⊢
    cases t <;> cases t' <;> simp [kind] at kinds
    · rfl
    · next entries entries' =>
      have found : (entries'.lookup segment).isSome = (entries.lookup segment).isSome := by
        have isSome := congrArg Option.isSome below
        cases ht : entries.lookup segment <;> cases ht' : entries'.lookup segment <;>
          simp [get?, ht, ht'] at isSome ⊢
      simp only [found]

theorem SameShape.locate_eq (h : SameShape root root') : root'.locate = root.locate := by
  funext current p
  rw [locate, locate, h.walkStep_eq]

/-- A tree that has another text at a path, and is as before elsewhere. -/
structure Rewrites (current : List String) (p : Path) (text : String) (root root' : FileTree) :
    Prop where
  shape : SameShape root root'
  here : root'.read current p = .ok text
  elsewhere : ∀ q, root.locate current q ≠ root.locate current p →
    root'.read current q = root.read current q

theorem read_eq (root : FileTree) (current : List String) (p : Path) :
    root.read current p = (root.locate current p).bind fun names =>
      match (root.get? names).map contents with
      | none => .error .notFound
      | some none => .error .isADirectory
      | some (some none) => .error .invalidUtf8
      | some (some (some text)) => .ok text := by
  rw [read, at?]
  cases root.locate current p with
  | error cause => rfl
  | ok names =>
    dsimp only [Except.bind]
    cases root.get? names with
    | none => rfl
    | some t =>
      cases t with
      | file text => cases text <;> rfl
      | directory entries => rfl

theorem exists_write {source : String} (h : root.read current p = .ok source) (text : String) :
    ∃ root', root.write current p text = .ok root' ∧ Rewrites current p text root root' := by
  obtain ⟨names, located, found⟩ := locate_of_read h
  have shape : SameShape root (root.set names (.file (some text))) := sameShape_set found
  refine ⟨root.set names (.file (some text)), by simp [write, located, found], shape, ?_, ?_⟩
  · rw [read_eq, shape.locate_eq, located]
    simp [Except.bind, contents_set found]
  · intro q ne
    rw [read_eq, read_eq, shape.locate_eq]
    cases other : root.locate current q with
    | error cause => rfl
    | ok names' =>
      have ne' : names' ≠ names := fun e => ne (by rw [other, located, e])
      simp [Except.bind, contents_set found, ne']

end FileTree

/-- A text after corrections that are written back if the mode says so and they can be made. -/
def fixedText (mode : Command.FixMode) (own : List Correction) (source : String) : String :=
  if mode = .write then
    match Correction.applyAll source own with
    | .ok outcome => outcome.output
    | .error _ => source
  else source

theorem output_of_unchanged {source : String} {own : List Correction} {outcome : Corrected}
    (h : Correction.applyAll source own = .ok outcome) (unchanged : outcome.changed = false) :
    outcome.output = source := by
  rw [Correction.applyAll] at h
  split at h
  · cases h
  · obtain rfl := Except.ok.inj h
    have none : (List.foldl Plan.add {} ‹List Edit›).accepted = [] := by
      simpa [Corrected.changed] using unchanged
    simp [Plan.run, none]

theorem run_correctFile {file source : String} (mode : Command.FixMode) (own : List Correction)
    (h : root.read current ⟨file⟩ = .ok source) :
    ∃ n root', (Command.correctFile (FileTree.fileSystem current) mode own file).run root =
        (n, root') ∧
      FileTree.Rewrites current ⟨file⟩ (fixedText mode own source) root root' := by
  have same : FileTree.Rewrites current ⟨file⟩ source root root :=
    ⟨fun _ => rfl, h, fun _ _ => rfl⟩
  have read : ((FileTree.fileSystem current).read ⟨file⟩).run root = (.ok source, root) := by
    simp only [← h]
    rfl
  rw [Command.correctFile, run_bind_of read, fixedText]
  dsimp only
  cases applied : Correction.applyAll source own with
  | error fault => exact ⟨0, root, rfl, by split <;> exact same⟩
  | ok outcome =>
    dsimp only
    cases written : mode == .write && outcome.changed with
    | false =>
      refine ⟨outcome.applied, root, rfl, ?_⟩
      split
      · next write =>
        rw [write] at written
        rwa [output_of_unchanged applied (by simpa using written)]
      · exact same
    | true =>
      obtain ⟨write, -⟩ := Bool.and_eq_true_iff.1 written
      obtain ⟨root', e, rewrites⟩ := FileTree.exists_write h outcome.output
      have run : ((FileTree.fileSystem current).write ⟨file⟩ outcome.output).run root =
          (.ok (), root') := by
        simp [FileTree.fileSystem, e]
        rfl
      refine ⟨outcome.applied, root', ?_, ?_⟩
      · rw [if_pos rfl, run_bind_of run]
        rfl
      · rwa [if_pos (eq_of_beq write)]

theorem fixedText_nil (mode : Command.FixMode) (source : String) :
    fixedText mode [] source = source := by
  rw [fixedText]
  split
  · rw [show Correction.applyAll source [] = .ok ⟨String.ofList source.toList, 0, []⟩ by
      simp [Correction.applyAll, Plan.run, pure, Except.pure]]
    exact String.ofList_toList
  · rfl

/-- Makes the corrections of one file, and counts them. -/
def correctStep (current : List String) (mode : Command.FixMode) (corrections : List Correction)
    (count : Nat) (s : SourceFile) : StateM FileTree Nat :=
  match corrections.filter (·.file == s.file) with
  | [] => return count
  | own => return count + (← Command.correctFile (FileTree.fileSystem current) mode own s.file)

theorem run_correctStep {s : SourceFile} (mode : Command.FixMode) (corrections : List Correction)
    (count : Nat) (h : root.read current ⟨s.file⟩ = .ok s.source) :
    ∃ n root', (correctStep current mode corrections count s).run root = (n, root') ∧
      FileTree.Rewrites current ⟨s.file⟩
        (fixedText mode (corrections.filter (·.file == s.file)) s.source) root root' := by
  rw [correctStep]
  cases own : corrections.filter (·.file == s.file) with
  | nil =>
    refine ⟨count, root, rfl, fun _ => rfl, ?_, fun _ _ => rfl⟩
    rw [fixedText_nil, h]
  | cons c cs =>
    obtain ⟨n, root', run, rewrites⟩ := run_correctFile mode (c :: cs) h
    exact ⟨count + n, root', run_bind_of run, rewrites⟩

/-- Each text is corrected as it was read, and all else is left as it is. -/
structure CorrectsOnce (mode : Command.FixMode) (corrections : List Correction)
    (sources : List SourceFile) (current : List String) (root root' : FileTree) : Prop where
  fixed : ∀ s ∈ sources, root'.read current ⟨s.file⟩ =
    .ok (fixedText mode (corrections.filter (·.file == s.file)) s.source)
  elsewhere : ∀ q, (∀ s ∈ sources, root.locate current q ≠ root.locate current ⟨s.file⟩) →
    root'.read current q = root.read current q

theorem run_correctSteps (mode : Command.FixMode) (corrections : List Correction) (count : Nat)
    (read : ∀ s ∈ sources, root.read current ⟨s.file⟩ = .ok s.source)
    (once : (sources.map fun s => root.locate current ⟨s.file⟩).Nodup) :
    ∃ n root', (sources.foldlM (correctStep current mode corrections) count).run root =
        (n, root') ∧ CorrectsOnce mode corrections sources current root root' := by
  induction sources generalizing root count with
  | nil => exact ⟨count, root, rfl, by simp, fun _ _ => rfl⟩
  | cons s sources ih =>
    obtain ⟨first, rest⟩ := nodup_cons.1 once
    have others : ∀ t ∈ sources, root.locate current ⟨s.file⟩ ≠ root.locate current ⟨t.file⟩ :=
      fun t ht e => first (mem_map.2 ⟨t, ht, e.symm⟩)
    -- for all other files the tree after the first one is as before
    obtain ⟨n, root₁, run, rewrites⟩ :=
      run_correctStep mode corrections count (read s mem_cons_self)
    have located := rewrites.shape.locate_eq
    obtain ⟨n', root', run', fixed, elsewhere⟩ := ih n
      (fun t ht => (rewrites.elsewhere _ (others t ht).symm).trans
        (read t (mem_cons_of_mem _ ht))) (located ▸ rest)
    rw [located] at elsewhere
    refine ⟨n', root', ?_, forall_mem_cons.2 ⟨?_, fixed⟩, fun q hq => ?_⟩
    · rw [foldlM_cons, run_bind_of run]
      exact run'
    · rw [elsewhere _ others, rewrites.here]
    · obtain ⟨ne, hq⟩ := forall_mem_cons.1 hq
      rw [elsewhere q hq, rewrites.elsewhere q ne]

theorem run_correctFiles (mode : Command.FixMode) (corrections : List Correction)
    (read : ∀ s ∈ sources, root.read current ⟨s.file⟩ = .ok s.source)
    (once : (sources.map fun s => root.locate current ⟨s.file⟩).Nodup) :
    ∃ n root', (Command.correctFiles (FileTree.fileSystem current) mode corrections sources).run
        root = (n, root') ∧ CorrectsOnce mode corrections sources current root root' := by
  rw [Command.correctFiles]
  split
  · next none =>
    refine ⟨0, root, rfl, fun s hs => ?_, fun _ _ => rfl⟩
    rw [eq_of_beq none, read s hs]
    rfl
  · exact run_correctSteps mode corrections 0 read once

end

/-! ## The main statement -/

/-- In a tree without links, for paths to things that exist the search succeeds. It finds every file
that is taken for one of them, and each of these once exactly if they are spelled alike where they
meet; so it is if all paths start alike and never go up. If each file is found once, a message about
an identifier that is repeated names different objects of the tree, and every file is corrected
once, from the text that was checked. -/
theorem files_found_once_iff (search : Search) (paths : List Path)
    (exist : ∀ a ∈ paths, (search.root.at? search.current a).isOk = true) :
    let fs := FileTree.fileSystem search.current
    ∃ files sources,
      (search.selection.find search.globs fs paths).run search.root = (.ok files, search.root) ∧
      (Command.readSources fs files).run search.root = (sources, search.root) ∧
      search.Finds paths files ∧
      ((files.map search.locate).Nodup ↔ search.SpelledAlike paths) ∧
      ((∀ a ∈ paths, .parent ∉ a.components ∧ ∀ b ∈ paths, a.start = b.start) →
        (files.map search.locate).Nodup) ∧
      ((files.map search.locate).Nodup →
        (∀ schema options, ∀ m ∈ repeatedIds (sources.map (checkFile schema options)),
          ∃ pair spots, ReportsPair (sources.map (checkFile schema options)) pair m ∧
            spots.Nodup ∧ List.Forall₂ (ObjectAt search.root search.current sources) spots
              (carriers (sources.map (checkFile schema options)) pair)) ∧
        ∀ mode corrections, ∃ n root',
          (Command.correctFiles fs mode corrections sources).run search.root = (n, root') ∧
          CorrectsOnce mode corrections sources search.current search.root root') := by
  intro fs
  obtain ⟨files, run, finds⟩ := Search.exists_finds exist
  have alike := finds.nodup_iff
  refine ⟨files, _, run, run_readSources search.root search.current files, finds, alike,
    fun h => alike.2 (Search.spelledAlike_of_start h), fun once => ?_⟩
  have read : ∀ s ∈ sourcesAt search.root search.current files,
      search.root.read search.current ⟨s.file⟩ = .ok s.source :=
    fun s => read_of_mem_sourcesAt
  have once' := nodup_sourcesAt once
  refine ⟨fun schema options m hm => ?_, fun mode corrections =>
    run_correctFiles mode corrections read once'⟩
  obtain ⟨pair, reports⟩ := exists_reportsPair hm
  obtain ⟨spots, different, objects⟩ := carriers_spots
    (fun s hs => (locate_of_read (read s hs)).imp fun _ => And.left) once' schema options pair
  exact ⟨pair, spots, reports, different, objects⟩

/-- A directory with a file and another directory in it, with one file. -/
def nestedMods : FileTree :=
  .directory [("mods", .directory [("a.txt", .file (some "[A]\nID=x;")),
    ("more", .directory [("b.txt", .file (some "[A]\nID=y"))])])]

theorem nestedMods_proper : nestedMods.Proper := by
  have names : Names "mods" ∧ Names "a.txt" ∧ Names "more" ∧ Names "b.txt" := by
    simp only [Names]
    decide +kernel
  have more : FileTree.Proper (.directory [("b.txt", .file (some "[A]\nID=y"))]) :=
    .directory (by decide) (by simp [names]) (forall_mem_singleton.2 (.file _))
  refine .directory (by decide) (by simp [names]) (forall_mem_singleton.2 ?_)
  exact .directory (by decide) (by simp [names])
    (forall_mem_cons.2 ⟨.file _, forall_mem_singleton.2 more⟩)

/-- Directories and a file that overlap, in various spellings. -/
theorem files_found_once_iff_nested :
    let paths : List Path := [⟨"mods/more/b.txt"⟩, ⟨"mods"⟩, ⟨"mods//more/"⟩]
    let search : Search :=
      ⟨⟨["txt"], []⟩, Glob.language, [], rfl, nestedMods, nestedMods_proper, []⟩
    (∀ a ∈ paths, (nestedMods.at? [] a).isOk = true) ∧
      ∃ files, (search.selection.find search.globs (FileTree.fileSystem []) paths).run nestedMods =
          (.ok files, nestedMods) ∧
        (files.map search.locate).Nodup := by
  intro paths search
  have exist : ∀ a ∈ paths, (nestedMods.at? [] a).isOk = true := by decide +kernel
  obtain ⟨files, -, run, -, -, -, alike, -⟩ := files_found_once_iff search paths exist
  exact ⟨exist, files, run, alike (by decide +kernel)⟩

/-- A file that is named in two ways is found, checked and corrected twice: its identifier is
reported as repeated, and the missing semicolon is put in two times. -/
theorem file_named_twice :
    let root : FileTree := .directory [("a.txt", .file (some "[A]\nID=x"))]
    let sources : List SourceFile := [⟨"./a.txt", "[A]\nID=x"⟩, ⟨"a.txt", "[A]\nID=x"⟩]
    ((FileSelection.find ⟨["txt"], []⟩ Glob.language (FileTree.fileSystem [])
        [⟨"a.txt"⟩, ⟨"./a.txt"⟩]).run root).1 = .ok [⟨"./a.txt"⟩, ⟨"a.txt"⟩] ∧
      root.locate [] ⟨"./a.txt"⟩ = root.locate [] ⟨"a.txt"⟩ ∧
      ((Command.readSources (FileTree.fileSystem []) [⟨"./a.txt"⟩, ⟨"a.txt"⟩]).run root).1 =
        sources ∧
      (repeatedIds (sources.map (checkFile .empty {}))).map Message.text =
        ["Duplicate ID 'x' for [A] at ./a.txt:2, a.txt:2"] ∧
      ((Command.correctFiles (FileTree.fileSystem []) .write
        (validate .empty {} sources).corrections sources).run root).2.read [] ⟨"a.txt"⟩ =
          .ok "[A]\nID=x;;" := by
  decide +kernel

end ModCheck
