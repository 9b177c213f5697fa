import ModCheck.Proofs.NameRepair

/-
  The keys that an object stores. A key that was written before is stored with one plus sign more
  each time, so that the stored keys are all different (`nodup_numbered`) and every property that is
  put into an object stays where it was put. Without the plus signs a stored key is the written one,
  and without a mark as well it is its base key (`base_keys_insertAll`); so counting base keys
  counts the places where a key is written, with a mark or without. Main statement:
  `insertions_kept`.
-/

namespace ModCheck

open List

/-! ## Base keys -/

/-- A written key without the mark that replaces a list. -/
def Key.unmarked (key : String) : String :=
  match key.toList with
  | '!' :: rest => String.ofList rest
  | _ => key

theorem Key.base_eq (key : String) : Key.base key = Key.unmarked (Key.written key) := by
  unfold Key.base baseChars
  split
  · next rest marked =>
    rw [Key.written, marked, Key.unmarked, String.toList_ofList]
    rfl
  · next plain =>
    rw [Key.unmarked, Key.written, String.toList_ofList]
    split
    · next rest marked => exact absurd marked (plain rest)
    · rfl

/-! ## Distinct keys -/

theorem nodup_numbered {keys : List String} (plain : ∀ k ∈ keys, IsPlainKey k) :
    (numbered [] keys).Nodup := by
  induction keys using List.reverseRecOn with
  | nil => exact nodup_nil
  | append_singleton keys key ih =>
    have before : ∀ k ∈ keys, IsPlainKey k := fun k hk => plain k (mem_append_left _ hk)
    have last : IsPlainKey key := plain key (by simp)
    rw [numbered_append]
    refine (ih before).append (nodup_singleton _) (disjoint_singleton.2 fun taken => ?_)
    exact Nat.lt_irrefl _ ((plusKey_mem_numbered before last _).1 taken)

section

variable {o : Object} (distinct : o.keys.Nodup) {i : Nat} {key : String} {p : Property}
  (here : o.properties[i]? = some (key, p))

include distinct here

/-- The properties before one have other keys. -/
theorem apart_of_getElem? :
    o.properties = o.properties.take i ++ (key, p) :: o.properties.drop (i + 1) ∧
      ∀ k ∈ o.keys.take i, k ≠ key := by
  obtain ⟨hi, e⟩ := List.getElem?_eq_some_iff.1 here
  have split : o.properties = o.properties.take i ++ (key, p) :: o.properties.drop (i + 1) := by
    rw [← e]
    simp
  refine ⟨split, fun k hk => ?_⟩
  rw [Object.keys, split, map_append, nodup_append] at distinct
  rw [Object.keys, ← map_take] at hk
  exact distinct.2.2 k hk key (by simp)

theorem get?_of_getElem? : o.get? key = some p := by
  obtain ⟨split, apart⟩ := apart_of_getElem? distinct here
  refine lookup_eq_some_iff.2 ⟨_, _, split, fun q hq => ?_⟩
  rw [Object.keys, ← map_take] at apart
  simpa using (apart q.1 (mem_map_of_mem hq)).symm

/-- What counts as earlier are the properties before the place of a key. -/
theorem writtenBefore_of_getElem? :
    o.writtenBefore key = ((o.keys.take i).map Key.base).count (Key.base key) := by
  obtain ⟨split, apart⟩ := apart_of_getElem? distinct here
  have keys : o.keys = o.keys.take i ++ key :: (o.properties.drop (i + 1)).map (·.1) := by
    rw [Object.keys]
    conv_lhs => rw [split]
    simp
  have before : o.keys.takeWhile (· != key) = o.keys.take i := by
    conv_lhs => rw [keys]
    rw [takeWhile_append_of_pos (by simpa using apart), takeWhile_cons_of_neg (by simp), append_nil]
  rw [Object.writtenBefore, before, List.count, countP_map]
  rfl

end

theorem countWritten_eq (o : Object) (key : String) :
    o.countWritten key = (o.keys.map Key.base).count key := by
  rw [List.count, countP_map]
  rfl

/-! ## Insertions -/

/-- Puts properties into an object one after the other. -/
def Object.insertAll (o : Object) (ps : List (String × Property)) : Object :=
  ps.foldl (fun o q => o.insert q.1 q.2) o

section

variable (typeName file : String) (span : LineSpan) {ps : List (String × Property)}

theorem properties_insertAll (ps : List (String × Property)) :
    ((Object.empty typeName file span).insertAll ps).properties =
      (storedKeys [] (ps.map (·.1))).zip (ps.map (·.2)) := by
  rw [Object.insertAll, foldl_insert]
  rfl

variable (plain : ∀ q ∈ ps, IsPlainKey q.1)

include plain

theorem numbered_insertAll : ((Object.empty typeName file span).insertAll ps).properties =
    (numbered [] (ps.map (·.1))).zip (ps.map (·.2)) := by
  have stored : storedKeys [] (ps.map (·.1)) = numbered [] (ps.map (·.1)) :=
    storedKeys_numbered (forall_mem_nil _) (forall_mem_map.2 plain)
  rw [properties_insertAll, stored]

theorem keys_insertAll : ((Object.empty typeName file span).insertAll ps).keys =
    numbered [] (ps.map (·.1)) := by
  rw [Object.keys, numbered_insertAll typeName file span plain]
  exact map_fst_zip (by simp [length_numbered])

theorem nodup_keys_insertAll : ((Object.empty typeName file span).insertAll ps).keys.Nodup := by
  rw [keys_insertAll typeName file span plain]
  exact nodup_numbered (forall_mem_map.2 plain)

/-- Without plus signs and mark, the keys are the written ones without their marks. -/
theorem base_keys_insertAll :
    ((Object.empty typeName file span).insertAll ps).keys.map Key.base =
      ps.map fun q => Key.unmarked q.1 := by
  rw [Object.keys, map_map, properties_insertAll]
  simp only [Function.comp_def, Key.base_eq]
  exact map_zip_storedKeys (fun key _ => Key.unmarked key) plain []

theorem getElem?_insertAll {i : Nat} {key : String} {p : Property}
    (here : ps[i]? = some (key, p)) :
    ((Object.empty typeName file span).insertAll ps).properties[i]? =
      some (plusKey key (((ps.take i).map (·.1)).count key), p) := by
  rw [numbered_insertAll typeName file span plain, getElem?_zip_eq_some, numbered_getElem?]
  simp [here]

end

theorem properties_of_object? {file : String} {b : Block} {o : Object}
    (h : b.object? file = some o) (typeName file' : String) (span : LineSpan) :
    o.properties = ((Object.empty typeName file' span).insertAll
      (b.statements.filterMap Statement.property?)).properties := by
  rw [properties_insertAll]
  unfold Block.object? at h
  split at h
  · cases h
  · cases h
    rw [foldl_insert]
    rfl

/-- The properties of an object that was read are put into it one after the other, each under the
name that stands before its equals sign. -/
theorem exists_insertAll_of_mem_parse {source file : String} {o : Object}
    (ho : o ∈ (Document.parse source file).objects) :
    ∃ ps, (∀ q ∈ ps, IsPlainKey q.1) ∧
      o.properties = ((Object.empty o.typeName o.file o.typeSpan).insertAll ps).properties := by
  obtain ⟨i, hi, rfl⟩ := mem_mapIdx.1 ho
  obtain ⟨b, hb, e⟩ := mem_filterMap.1 (getElem_mem hi)
  obtain ⟨name, closed, heading, -⟩ := object?_spec e
  exact ⟨_, isPlainKey_of_named hb heading, properties_of_object? e _ _ _⟩

/-- Properties that are put into an object stay there, one for each time and in that order. The
`i`-th is stored under its key with as many plus signs as the key was written before; no two stored
keys are the same; and counting by base keys counts the places where the same key is written, with
a mark or without. An object that was read is made in this way, from keys without plus signs. -/
theorem insertions_kept :
    (∀ (typeName file : String) (span : LineSpan) (ps : List (String × Property)),
      (∀ q ∈ ps, IsPlainKey q.1) →
      let o := (Object.empty typeName file span).insertAll ps
      o.properties.length = ps.length ∧ o.keys.Nodup ∧
      ∀ i key p, ps[i]? = some (key, p) →
        let stored := plusKey key (((ps.take i).map (·.1)).count key)
        o.properties[i]? = some (stored, p) ∧ o.get? stored = some p ∧
        o.writtenBefore stored =
          ((ps.take i).map fun q => Key.unmarked q.1).count (Key.unmarked key) ∧
        o.countWritten (Key.base stored) =
          (ps.map fun q => Key.unmarked q.1).count (Key.unmarked key)) ∧
    ∀ source file, ∀ o ∈ (Document.parse source file).objects,
      ∃ ps, (∀ q ∈ ps, IsPlainKey q.1) ∧
        o.properties = ((Object.empty o.typeName o.file o.typeSpan).insertAll ps).properties := by
  refine ⟨fun typeName file span ps plain => ?_, fun source file o ho =>
    exists_insertAll_of_mem_parse ho⟩
  have distinct := nodup_keys_insertAll typeName file span plain
  have bases := base_keys_insertAll typeName file span plain
  refine ⟨?_, distinct, fun i key p here => ?_⟩
  · have := congrArg List.length bases
    simpa [Object.keys] using this
  · have place := getElem?_insertAll typeName file span plain here
    have base (n : Nat) : Key.base (plusKey key n) = Key.unmarked key := by
      rw [Key.base_eq, Key.written_plusKey (plain _ (mem_of_getElem? here))]
    refine ⟨place, get?_of_getElem? distinct place, ?_, ?_⟩
    · rw [writtenBefore_of_getElem? distinct place, base, map_take, bases, map_take]
    · rw [countWritten_eq, base, bases]

/-- A key that is written three times, the second time with a mark. -/
theorem insertions_kept_marked :
    let p (value : String) : Property := ⟨value, ⟨1, 0, 0⟩, ⟨⟨1, 0⟩, ⟨1, 0⟩⟩, true⟩
    let ps := [("range", p "1"), ("!range", p "2"), ("range", p "3")]
    let o := (Object.empty "Action" "a.txt" ⟨1, 0, 0⟩).insertAll ps
    (∀ q ∈ ps, IsPlainKey q.1) ∧ ps[2]? = some ("range", p "3") ∧
      o.properties[2]? = some ("range+", p "3") ∧ o.get? "range+" = some (p "3") ∧
      o.writtenBefore "range+" = 2 ∧ o.countWritten "range" = 3 := by
  intro p ps o
  have plain : ∀ q ∈ ps, IsPlainKey q.1 := by
    unfold IsPlainKey
    decide +kernel
  have stored : plusKey "range" (((ps.take 2).map (·.1)).count "range") = "range+" := by
    decide +kernel
  have base : Key.base "range+" = "range" := by decide +kernel
  have before : ((ps.take 2).map fun q => Key.unmarked q.1).count (Key.unmarked "range") = 2 := by
    decide +kernel
  have all : (ps.map fun q => Key.unmarked q.1).count (Key.unmarked "range") = 3 := by
    decide +kernel
  have kept := (insertions_kept.1 "Action" "a.txt" ⟨1, 0, 0⟩ ps plain).2.2 2 "range" (p "3") rfl
  dsimp only at kept
  rw [stored, base, before, all] at kept
  exact ⟨plain, rfl, kept⟩

end ModCheck
