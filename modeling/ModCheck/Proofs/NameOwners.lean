import Mathlib.Data.List.Nodup
import ModCheck.Schema.Operator
import ModCheck.Schema.Tag

/-
  Whom a name leads to. A table is filled name by name, and a name whose key is taken is passed
  over, so looking a key up after a name was entered finds what it found before, or else the item
  that the name was entered for (`owner?_enter`). Hence a name leads to the first item that goes by
  it (`find?_build`), and no key is listed twice (`distinctKeys_build`). Operators are told apart by
  their names as written, at every depth, and tags and commands by their names in lower case. Main
  statement: `names_lead_to_first_owner`.
-/

namespace ModCheck

open List

namespace NameTable

variable {α : Type} {e : NameEntry α} {entries : List (NameEntry α)} {key : String → String}
  {names : α → List String}

/-! ## Entries -/

theorem mem_enter {item : α} {name : String}
    (h : e ∈ enter key item entries name) : e ∈ entries ∨ e = ⟨key name, name, item⟩ := by
  unfold enter at h
  split at h
  · exact Or.inl h
  · simpa using h

theorem mem_foldl_enter {item : α} {ns : List String} (h : e ∈ ns.foldl (enter key item) entries) :
    e ∈ entries ∨ ∃ name ∈ ns, e = ⟨key name, name, item⟩ := by
  induction ns generalizing entries with
  | nil => exact Or.inl h
  | cons name ns ih =>
    rcases ih h with h | ⟨n, hn, rfl⟩
    · rcases mem_enter h with h | rfl
      · exact Or.inl h
      · exact Or.inr ⟨name, mem_cons_self, rfl⟩
    · exact Or.inr ⟨n, mem_cons_of_mem _ hn, rfl⟩

theorem mem_foldl_items {items : List α}
    (h : e ∈ items.foldl (fun entries item => (names item).foldl (enter key item) entries)
      entries) : e ∈ entries ∨ e.item ∈ items ∧ e.name ∈ names e.item ∧ e.key = key e.name := by
  induction items generalizing entries with
  | nil => exact Or.inl h
  | cons item items ih =>
    rcases ih h with h | ⟨hitem, hname, hkey⟩
    · rcases mem_foldl_enter h with h | ⟨name, hname, rfl⟩
      · exact Or.inl h
      · exact Or.inr ⟨mem_cons_self, hname, rfl⟩
    · exact Or.inr ⟨mem_cons_of_mem _ hitem, hname, hkey⟩

/-- Every entry of a table is there for a name of an item. -/
theorem mem_entries_build {items : List α} (h : e ∈ (build key names items).entries) :
    e.item ∈ items ∧ e.name ∈ names e.item ∧ e.key = key e.name :=
  (mem_foldl_items h).resolve_left not_mem_nil

theorem keys_build (items : List α) :
    (build key names items).entries.map (·.key) = (build key names items).names.map key := by
  rw [NameTable.names, map_map]
  exact map_congr_left fun e he => (mem_entries_build he).2.2

/-! ## Owners -/

/-- The item that a key leads to. -/
def owner? (entries : List (NameEntry α)) (k : String) : Option α :=
  (entries.find? (·.key == k)).map (·.item)

theorem owner?_enter (item : α) (entries : List (NameEntry α)) (name k : String) :
    owner? (enter key item entries name) k =
      (owner? entries k).or (if key name == k then some item else none) := by
  unfold enter owner?
  split
  · next taken =>
    by_cases hk : key name = k
    · subst hk
      obtain ⟨e, he⟩ := Option.isSome_iff_exists.1 (find?_isSome.2 (any_eq_true.1 taken))
      rw [he]
      rfl
    · simp [hk]
  · by_cases hk : key name = k <;> cases h : entries.find? (·.key == k) <;> simp [h]

theorem owner?_enterAll (item : α) (ns : List String) (entries : List (NameEntry α)) (k : String) :
    owner? (ns.foldl (enter key item) entries) k =
      (owner? entries k).or (if ns.any (key · == k) then some item else none) := by
  induction ns generalizing entries with
  | nil => simp
  | cons name ns ih =>
    rw [foldl_cons, ih, owner?_enter, any_cons]
    cases key name == k <;> simp

theorem owner?_enterItems (items : List α) (entries : List (NameEntry α)) (k : String) :
    owner? (items.foldl (fun entries item => (names item).foldl (enter key item) entries) entries)
        k = (owner? entries k).or (items.find? fun item => (names item).any (key · == k)) := by
  induction items generalizing entries with
  | nil => simp
  | cons item items ih =>
    rw [foldl_cons, ih, owner?_enterAll, find?_cons]
    cases (names item).any (key · == k) <;> simp

/-- A key leads to the first item with a name for it. -/
theorem find?_build (items : List α) (k : String) :
    (build key names items).find? k = items.find? fun item => (names item).any (key · == k) :=
  owner?_enterItems items [] k

theorem isSome_find?_iff {table : NameTable α} {k : String} :
    (table.find? k).isSome = true ↔ k ∈ table.entries.map (·.key) := by
  rw [find?]
  simp

/-! ## Names that are listed -/

/-- Entries of which no two have the same key. -/
def DistinctKeys (entries : List (NameEntry α)) : Prop :=
  (entries.map (·.key)).Nodup

theorem DistinctKeys.enter (h : DistinctKeys entries) (item : α)
    (name : String) : DistinctKeys (enter key item entries name) := by
  unfold NameTable.enter
  split
  · exact h
  · next free =>
    rw [DistinctKeys, map_append, map_singleton]
    refine h.append (nodup_singleton _) (disjoint_singleton.2 fun taken => free ?_)
    obtain ⟨e, he, hk⟩ := mem_map.1 taken
    exact any_eq_true.2 ⟨e, he, beq_iff_eq.2 hk⟩

theorem distinctKeys_build (items : List α) : DistinctKeys (build key names items).entries := by
  refine List.foldlRecOn (motive := DistinctKeys) items _ nodup_nil fun entries h item _ => ?_
  exact List.foldlRecOn (motive := DistinctKeys) (names item) _ h fun entries h name _ =>
    h.enter item name

theorem names_enter_sublist (item : α) (entries : List (NameEntry α)) (name : String) :
    ((enter key item entries name).map (·.name)).Sublist (entries.map (·.name) ++ [name]) := by
  unfold enter
  split
  · exact sublist_append_left _ _
  · rw [map_append]
    exact List.Sublist.refl _

theorem names_enterAll_sublist (item : α) (ns : List String) (entries : List (NameEntry α)) :
    ((ns.foldl (enter key item) entries).map (·.name)).Sublist (entries.map (·.name) ++ ns) := by
  induction ns generalizing entries with
  | nil => simp
  | cons name ns ih =>
    refine (ih _).trans ?_
    rw [append_cons]
    exact (names_enter_sublist item entries name).append_right ns

/-- The names stand in the order of the items. -/
theorem names_build_sublist (items : List α) :
    (build key names items).names.Sublist (items.flatMap names) := by
  have run (entries : List (NameEntry α)) :
      ((items.foldl (fun entries item => (names item).foldl (enter key item) entries)
        entries).map (·.name)).Sublist (entries.map (·.name) ++ items.flatMap names) := by
    induction items generalizing entries with
    | nil => simp
    | cons item items ih =>
      refine (ih _).trans ?_
      rw [flatMap_cons, ← append_assoc]
      exact (names_enterAll_sublist item (names item) entries).append_right _
  exact run []

end NameTable

/-! ## First owners -/

/-- Each name leads to the first of the items that go by it, where `same` tells which names are
taken for one; `listed` holds the names that lead somewhere. -/
structure FirstOwners {α : Type} (names : α → List String) (same : String → String → Bool)
    (items : List α) (listed : List String) (resolve : String → Option α) : Prop where
  first : ∀ name, resolve name = items.find? fun item => (names item).any (same · name)
  defined : ∀ name, (resolve name).isSome = true ↔ ∃ other ∈ listed, same other name = true
  distinct : listed.Pairwise fun a b => same a b = false
  /-- Names are listed in the order in which they are given. -/
  ordered : listed.Sublist (items.flatMap names)

theorem firstOwners_build {α : Type} (key : String → String) (names : α → List String)
    (items : List α) :
    FirstOwners names (fun a b => key a == key b) items (NameTable.build key names items).names
      fun name => (NameTable.build key names items).find? (key name) := by
  refine ⟨fun name => NameTable.find?_build items (key name), fun name => ?_, ?_,
    NameTable.names_build_sublist items⟩
  · rw [NameTable.isSome_find?_iff, NameTable.keys_build]
    simp
  · have distinct : NameTable.DistinctKeys (NameTable.build key names items).entries :=
      NameTable.distinctKeys_build items
    rw [NameTable.DistinctKeys, NameTable.keys_build, List.Nodup, pairwise_map] at distinct
    exact distinct.imp fun h => beq_eq_false_iff_ne.2 h

/-- A name that is listed can be looked up. -/
theorem Operator.find?_of_mem_names {operators : List Operator} {name : String}
    (h : name ∈ (table operators).names) : ∃ op, (table operators).find? name = some op :=
  Option.isSome_iff_exists.1
    (((firstOwners_build id allNames operators).defined name).2 ⟨name, h, beq_self_eq_true _⟩)

/-- Among operators, and among the operators inside any of them, a name leads to the first that
goes by it, if it is listed, and no name is listed twice. The same is true of tags and of commands,
where two names are one if they are the same in lower case. -/
theorem names_lead_to_first_owner :
    (∀ operators : List Operator,
      FirstOwners Operator.allNames (fun a b => a == b) operators
        (Operator.table operators).names (Operator.table operators).find?) ∧
    (∀ op : Operator,
      FirstOwners Operator.allNames (fun a b => a == b) op.subOperators
        op.subTable.names op.subTable.find?) ∧
    ∀ tags : List TagSpec,
      FirstOwners TagSpec.allNames (fun a b => Text.lowerCase a == Text.lowerCase b) tags
        (TagSpec.table tags).names (TagSpec.table tags).findTag? :=
  ⟨fun operators => firstOwners_build id Operator.allNames operators,
    fun op => firstOwners_build id Operator.allNames op.subOperators,
    fun tags => firstOwners_build Text.lowerCase TagSpec.allNames tags⟩

end ModCheck
