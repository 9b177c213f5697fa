import ModCheck.Proofs.StoredKeys

/-
  Properties that are written more than once. Every stored key is checked on its own, and the check
  fires where the same key, with a mark or without, was written once before. The `j`-th place of a
  key has `j` places before it (`writtenBefore_of_writtenAs`), so the check fires at the second
  place and nowhere else (`flatMap_repeatedProperty`). Among all messages about a file those about
  one key of one object are told by where they stand, since no two names of a file stand at the same
  place. Main statement: `repetition_reported_once`.
-/

namespace ModCheck

open List

variable {c : ObjectClass} {e : String × Property} {field : Field} {key : String} {m : Message}
  {o : Object}

/-! ## The places of a key -/

/-- The properties of an object that are written with a key, with a mark or without, in order. -/
def Object.writtenAs (o : Object) (key : String) : List (String × Property) :=
  o.properties.filter fun e => Key.unmarked (Key.written e.1) == key

theorem mem_writtenAs : e ∈ o.writtenAs key ↔ e ∈ o.properties ∧ Key.base e.1 = key := by
  simp [Object.writtenAs, Key.base_eq]

theorem countWritten_eq_length (o : Object) (key : String) :
    o.countWritten key = (o.writtenAs key).length := by
  rw [Object.countWritten, Object.keys, countP_map, countP_eq_length_filter, Object.writtenAs]
  simp only [Function.comp_def, Key.base_eq]

/-- What a filter keeps at place `j` stands behind `j` others that it keeps. -/
theorem exists_getElem?_of_filter {α : Type} {p : α → Bool} {l : List α} {j : Nat} {e : α}
    (h : (l.filter p)[j]? = some e) : ∃ i : Nat, l[i]? = some e ∧ (l.take i).countP p = j := by
  induction l generalizing j with
  | nil => simp at h
  | cons x xs ih =>
    by_cases hx : p x = true
    · rw [filter_cons_of_pos hx] at h
      cases j with
      | zero => exact ⟨0, h, rfl⟩
      | succ j =>
        obtain ⟨i, hi, hj⟩ := ih h
        exact ⟨i + 1, hi, by rw [take_succ_cons, countP_cons_of_pos hx, hj]⟩
    · rw [filter_cons_of_neg hx] at h
      obtain ⟨i, hi, hj⟩ := ih h
      exact ⟨i + 1, hi, by rw [take_succ_cons, countP_cons_of_neg hx, hj]⟩

theorem flatMap_filter {α β : Type} (p : α → Bool) (f : α → List β) (l : List α) :
    (l.filter p).flatMap f = l.flatMap fun x => if p x then f x else [] := by
  induction l with
  | nil => rfl
  | cons x xs ih => by_cases hx : p x = true <;> simp [hx, ih]

section

variable {o : Object} (distinct : o.keys.Nodup)

include distinct

theorem writtenBefore_of_writtenAs {j : Nat} (h : (o.writtenAs key)[j]? = some e) :
    o.writtenBefore e.1 = j := by
  obtain ⟨i, hi, hj⟩ := exists_getElem?_of_filter h
  have base : Key.base e.1 = key := (mem_writtenAs.1 (mem_of_getElem? h)).2
  rw [writtenBefore_of_getElem? distinct hi, base, Object.keys, ← map_take, map_map,
    List.count, countP_map, ← hj]
  simp only [Function.comp_def, Key.base_eq]

/-- Of all places of a key the check fires at the second one. -/
theorem flatMap_repeatedProperty (key : String) (single : field.type.isList = false) :
    (o.writtenAs key).flatMap (fun e => repeatedProperty o field e.1 e.2) =
      ((o.writtenAs key)[1]?.map fun e => Message.about .warning .duplicateProperty
        ("'" ++ key ++ "' is defined " ++ toString (o.writtenAs key).length
          ++ " times; the engine keeps every value") o.file e.2.nameSpan.toSpan).toList := by
  have quiet {j : Nat} {e : String × Property} (h : (o.writtenAs key)[j]? = some e) (hj : j ≠ 1) :
      repeatedProperty o field e.1 e.2 = [] := by
    unfold repeatedProperty
    simp [writtenBefore_of_writtenAs distinct h, hj]
  cases places : o.writtenAs key with
  | nil => rfl
  | cons first others =>
    have atFirst : repeatedProperty o field first.1 first.2 = [] := by
      refine quiet (j := 0) ?_ (by decide)
      rw [places]
      rfl
    cases others with
    | nil =>
      rw [flatMap_singleton, atFirst]
      rfl
    | cons second rest =>
      have later : rest.flatMap (fun e => repeatedProperty o field e.1 e.2) = [] := by
        refine flatMap_eq_nil_iff.2 fun e he => ?_
        obtain ⟨j, hj⟩ := mem_iff_getElem?.1 he
        refine quiet (j := j + 2) ?_ (by omega)
        rw [places]
        exact hj
      have here : (o.writtenAs key)[1]? = some second := by rw [places]; rfl
      have base : Key.base second.1 = key := (mem_writtenAs.1 (mem_of_getElem? here)).2
      rw [flatMap_cons, flatMap_cons, atFirst, later, ← places]
      simp [repeatedProperty, writtenBefore_of_writtenAs distinct here, single, base,
        countWritten_eq_length, here]

end

/-! ## The messages of the check -/

/-- Whether a message is about a key that is written more than once. -/
def Message.isRepetition (m : Message) : Bool :=
  m.code == Code.duplicateProperty.text

/-- Whether a message stands where an object has a key. -/
def Message.standsAt (o : Object) (key : String) (m : Message) : Bool :=
  (o.writtenAs key).any fun e => m.span == some e.2.nameSpan.toSpan

theorem filter_of_codes {ms : List Message}
    (h : ∀ m ∈ ms, ∃ c : Code, m.code = c.text ∧ c ≠ .duplicateProperty) :
    ms.filter Message.isRepetition = [] := by
  refine filter_eq_nil_iff.2 fun m hm => ?_
  obtain ⟨c, hc, other⟩ := h m hm
  rw [Message.isRepetition, hc]
  cases c <;> simp [Code.text] at other ⊢

/-- The messages of the check about one property. -/
def propertyRepetitions (o : Object) (c : ObjectClass) (e : String × Property) : List Message :=
  if Key.base e.1 == Key.copy then []
  else match c.field? (Key.base e.1) with
    | none => []
    | some field => repeatedProperty o field e.1 e.2

/-- The messages of the check about one object. -/
def repetitions (schema : ObjectSchema) (o : Object) : List Message :=
  match schema.classOfType? o.typeName with
  | none => []
  | some c => o.properties.flatMap (propertyRepetitions o c)

section

variable (schema : Schema) (options : Options)

theorem filter_valueMessages (className key value : String) (field : Field) (start : Position)
    (file : String) :
    (valueMessages schema options className key value field start file).filter
      Message.isRepetition = [] := by
  refine filter_of_codes fun m hm => ?_
  obtain ⟨issue, hi, rfl⟩ := mem_map.1 hm
  refine ⟨issue.code, rfl, fun e => ?_⟩
  have := isOfValue_of_mem_valueIssues hi
  rw [e] at this
  exact Bool.false_ne_true this

theorem filter_propertyMessages (o : Object) (c : ObjectClass) (e : String × Property) :
    (propertyMessages schema options o c e.1 e.2).filter Message.isRepetition =
      propertyRepetitions o c e := by
  unfold propertyMessages propertyRepetitions
  dsimp only
  split
  · rfl
  · cases c.field? (Key.base e.1) with
    | none => rfl
    | some field =>
      have fires : (repeatedProperty o field e.1 e.2).filter Message.isRepetition =
          repeatedProperty o field e.1 e.2 := by
        unfold repeatedProperty
        split <;> rfl
      have mark : (uselessMark o field e.1 e.2).filter Message.isRepetition = [] := by
        unfold uselessMark
        split <;> rfl
      rw [filter_append, filter_append, fires, mark, filter_valueMessages, append_nil, append_nil]

theorem filter_objectMessages (before : List Object) (o : Object) :
    (objectMessages schema options before o).filter Message.isRepetition =
      repetitions schema.objects o := by
  unfold objectMessages repetitions ObjectSchema.classOfType?
  cases schema.objects.type? o.typeName with
  | none => rfl
  | some type =>
    have id : (missingId type o).filter Message.isRepetition = [] := by
      unfold missingId
      split <;> rfl
    have clones : (unsupportedClones type o).filter Message.isRepetition = [] := by
      refine filter_of_codes fun m hm => ?_
      unfold unsupportedClones at hm
      split at hm
      · simp at hm
      · obtain ⟨e, -, rfl⟩ := mem_map.1 hm
        exact ⟨.cloneUnsupported, rfl, by decide⟩
    have place : (misplaced schema.objects type before o).filter Message.isRepetition = [] := by
      unfold misplaced
      split <;> rfl
    simp only [filter_append, id, clones, place, Option.bind_some]
    cases type.className.bind schema.objects.class? with
    | none => rfl
    | some c =>
      rw [filter_flatMap]
      exact flatMap_congr fun e _ => filter_propertyMessages schema options o c e

theorem filter_objectsMessages (before os : List Object) :
    (objectsMessages schema options before os).filter Message.isRepetition =
      os.flatMap (repetitions schema.objects) := by
  induction os generalizing before with
  | nil => rfl
  | cons o os ih =>
    rw [objectsMessages, filter_append, filter_objectMessages, ih, flatMap_cons]

theorem filter_checkFile (f : SourceFile) :
    (checkFile schema options f).messages.filter Message.isRepetition =
      (checkFile schema options f).objects.flatMap (repetitions schema.objects) := by
  have structural : (Document.parse f.source f.file).messages.filter Message.isRepetition = [] := by
    refine filter_of_codes fun m hm => ?_
    obtain ⟨c, hc, hs⟩ := (about_of_mem_parse hm).isOfStructure
    refine ⟨c, hc, fun e => ?_⟩
    rw [e] at hs
    exact Bool.false_ne_true hs
  rw [checkFile, filter_append, structural, filter_objectsMessages, nil_append]

end

/-! ## One key among all -/

/-- A message about a property stands at its key, which leads to a field. -/
theorem mem_propertyRepetitions (h : m ∈ propertyRepetitions o c e) :
    m.span = some e.2.nameSpan.toSpan ∧ Key.base e.1 ≠ Key.copy ∧
      ∃ field, c.field? (Key.base e.1) = some field := by
  unfold propertyRepetitions at h
  split at h
  · simp at h
  · next hkey =>
    split at h
    · simp at h
    · next field hfield =>
      refine ⟨?_, by simpa using hkey, field, hfield⟩
      unfold repeatedProperty at h
      split at h
      · rw [mem_singleton.1 h]
        rfl
      · simp at h

theorem mem_repetitions {schema : ObjectSchema} (h : m ∈ repetitions schema o) :
    ∃ c, schema.classOfType? o.typeName = some c ∧
      ∃ e ∈ o.properties, m ∈ propertyRepetitions o c e := by
  unfold repetitions at h
  split at h
  · simp at h
  · next c hclass => exact ⟨c, hclass, mem_flatMap.1 h⟩

theorem standsAt_iff :
    m.standsAt o key = true ↔ ∃ e ∈ o.writtenAs key, m.span = some e.2.nameSpan.toSpan := by
  simp [Message.standsAt]

theorem mem_nameSpans (h : e ∈ o.properties) : e.2.nameSpan.toSpan ∈ o.nameSpans :=
  mem_cons_of_mem _ (mem_map_of_mem h)

section

variable {schema : ObjectSchema} {o : Object} {key : String}

/-- The messages about an object stand at none of the keys of another one. -/
theorem filter_repetitions_of_apart {other : Object}
    (apart : ∀ s ∈ other.nameSpans, s ∉ o.nameSpans) :
    (repetitions schema other).filter (·.standsAt o key) = [] := by
  refine filter_eq_nil_iff.2 fun m hm stands => ?_
  obtain ⟨c, -, e, he, hm⟩ := mem_repetitions hm
  obtain ⟨hspan, -⟩ := mem_propertyRepetitions hm
  obtain ⟨e', he', hspan'⟩ := standsAt_iff.1 stands
  have same : e.2.nameSpan.toSpan = e'.2.nameSpan.toSpan :=
    Option.some.inj (hspan.symm.trans hspan')
  refine apart _ (mem_nameSpans he) ?_
  rw [same]
  exact mem_nameSpans (mem_writtenAs.1 he').1

theorem filter_flatMap_repetitions {os : List Object} (names : (os.flatMap Object.nameSpans).Nodup)
    (ho : o ∈ os) :
    (os.flatMap (repetitions schema)).filter (·.standsAt o key) =
      (repetitions schema o).filter (·.standsAt o key) := by
  -- split at one place of `o`: the same object at a second place would have the same spans
  obtain ⟨us, vs, rfl⟩ := append_of_mem ho
  rw [flatMap_append] at names
  obtain ⟨-, after, before⟩ := nodup_append.1 names
  obtain ⟨-, -, behind⟩ := nodup_append.1 after
  have quiet {ws : List Object} (apart : ∀ other ∈ ws, ∀ s ∈ other.nameSpans, s ∉ o.nameSpans) :
      (ws.flatMap (repetitions schema)).filter (·.standsAt o key) = [] := by
    rw [filter_flatMap]
    exact flatMap_eq_nil_iff.2 fun other hother =>
      filter_repetitions_of_apart (apart other hother)
  have quietBefore := quiet fun other hother s hs hso =>
    before s (mem_flatMap.2 ⟨other, hother, hs⟩) s (mem_append_left _ hso) rfl
  have quietBehind := quiet fun other hother s hs hso =>
    behind s hso s (mem_flatMap.2 ⟨other, hother, hs⟩) rfl
  rw [flatMap_append, flatMap_cons, filter_append, filter_append, quietBefore,
    quietBehind, nil_append, append_nil]

/-- In an object whose names stand at different places, the messages that stand at a key are those
about its places. -/
theorem filter_repetitions (names : o.nameSpans.Nodup)
    (hclass : schema.classOfType? o.typeName = some c) (hkey : key ≠ Key.copy)
    (hfield : c.field? key = some field) :
    (repetitions schema o).filter (·.standsAt o key) =
      (o.writtenAs key).flatMap fun e => repeatedProperty o field e.1 e.2 := by
  have inj := inj_on_of_nodup_map (nodup_cons.1 names).2
  have atProperty : ∀ e ∈ o.properties, (propertyRepetitions o c e).filter (·.standsAt o key) =
      if Key.unmarked (Key.written e.1) == key then repeatedProperty o field e.1 e.2 else [] := by
    intro e he
    rw [← Key.base_eq]
    by_cases base : Key.base e.1 = key
    · have all : ∀ m ∈ propertyRepetitions o c e, m.standsAt o key = true := fun m hm =>
        standsAt_iff.2 ⟨e, mem_writtenAs.2 ⟨he, base⟩, (mem_propertyRepetitions hm).1⟩
      rw [filter_eq_self.2 all, propertyRepetitions, base, hfield]
      simp [hkey]
    · rw [if_neg (by simpa using base)]
      refine filter_eq_nil_iff.2 fun m hm stands => base ?_
      obtain ⟨e', he', hspan⟩ := standsAt_iff.1 stands
      obtain ⟨he', base'⟩ := mem_writtenAs.1 he'
      have same := Option.some.inj ((mem_propertyRepetitions hm).1.symm.trans hspan)
      rwa [inj he he' same]
  rw [repetitions, hclass]
  rw [filter_flatMap, flatMap_congr atProperty, Object.writtenAs, flatMap_filter]

end

/-! ## Files -/

/-- Whether a message says of a key of an object that it is repeated: it stands where that key is
written. -/
def Message.repeats (o : Object) (key : String) (m : Message) : Bool :=
  m.isRepetition && m.standsAt o key

theorem nodup_keys_of_mem_parse {source file : String}
    (ho : o ∈ (Document.parse source file).objects) : o.keys.Nodup := by
  obtain ⟨ps, plain, e⟩ := exists_insertAll_of_mem_parse ho
  rw [Object.keys, e]
  exact nodup_keys_insertAll _ _ _ plain

section

variable {schema : Schema} {options : Options} {f : SourceFile}

theorem filter_repeats (o : Object) (key : String) :
    (checkFile schema options f).messages.filter (·.repeats o key) =
      ((checkFile schema options f).objects.flatMap (repetitions schema.objects)).filter
        (·.standsAt o key) := by
  rw [← filter_checkFile, filter_filter]
  exact filter_congr fun m _ => Bool.and_comm _ _

/-- The messages about a key of a file's object are those of its places. -/
theorem filter_repeats_eq (ho : o ∈ (checkFile schema options f).objects)
    (hclass : schema.objects.classOfType? o.typeName = some c) (hkey : key ≠ Key.copy)
    (hfield : c.field? key = some field) :
    (checkFile schema options f).messages.filter (·.repeats o key) =
      (o.writtenAs key).flatMap fun e => repeatedProperty o field e.1 e.2 := by
  have names : ((checkFile schema options f).objects.flatMap Object.nameSpans).Nodup := by
    rw [checkFile, parse_nameSpans]
    exact nameSpans_nodup f.source
  rw [filter_repeats, filter_flatMap_repetitions names ho,
    filter_repetitions ((nodup_flatMap.1 names).1 o ho) hclass hkey hfield]

theorem exists_repeats_of_code (hm : m ∈ (checkFile schema options f).messages)
    (hcode : m.code = Code.duplicateProperty.text) :
    ∃ o ∈ (checkFile schema options f).objects, ∃ c key field,
      schema.objects.classOfType? o.typeName = some c ∧ key ≠ Key.copy ∧
        c.field? key = some field ∧ m.repeats o key = true := by
  have rep : m.isRepetition = true := by simp [Message.isRepetition, hcode]
  have found := mem_filter.2 ⟨hm, rep⟩
  rw [filter_checkFile] at found
  obtain ⟨o, ho, found⟩ := mem_flatMap.1 found
  obtain ⟨c, hclass, e, he, found⟩ := mem_repetitions found
  obtain ⟨hspan, hkey, field, hfield⟩ := mem_propertyRepetitions found
  have stands : m.standsAt o (Key.base e.1) = true :=
    standsAt_iff.2 ⟨e, mem_writtenAs.2 ⟨he, rfl⟩, hspan⟩
  refine ⟨o, ho, c, Key.base e.1, field, hclass, hkey, hfield, ?_⟩
  rw [Message.repeats, rep, stands]
  rfl

end

/-- Each repeated property is reported once. Let an object have a class, and let a key other than
that for copies lead to a field of it. If the field is not a list and the key is written more than
once, there is one message about it, which stands at the second place and says how often it is
written. Otherwise there is none. No other key of the file has such a message. -/
theorem repetition_reported_once (schema : Schema) (options : Options) (f : SourceFile) :
    let d := checkFile schema options f
    (∀ o ∈ d.objects, ∀ c, schema.objects.classOfType? o.typeName = some c →
      ∀ key field, key ≠ Key.copy → c.field? key = some field →
        (field.type.isList = false → 2 ≤ (o.writtenAs key).length →
          ∃ second, (o.writtenAs key)[1]? = some second ∧
            d.messages.filter (·.repeats o key) = [.about .warning .duplicateProperty
              ("'" ++ key ++ "' is defined " ++ toString (o.writtenAs key).length
                ++ " times; the engine keeps every value") o.file second.2.nameSpan.toSpan]) ∧
        (field.type.isList = true ∨ (o.writtenAs key).length ≤ 1 →
          d.messages.filter (·.repeats o key) = [])) ∧
    ∀ m ∈ d.messages, m.code = Code.duplicateProperty.text →
      ∃ o ∈ d.objects, ∃ c key field, schema.objects.classOfType? o.typeName = some c ∧
        key ≠ Key.copy ∧ c.field? key = some field ∧ m.repeats o key = true := by
  intro d
  refine ⟨fun o ho c hclass key field hkey hfield => ?_, fun m hm => exists_repeats_of_code hm⟩
  have places := filter_repeats_eq ho hclass hkey hfield
  have once (single : field.type.isList = false) :=
    flatMap_repeatedProperty (nodup_keys_of_mem_parse ho) key single
  refine ⟨fun single twice => ?_, fun quiet => ?_⟩
  · have second : (o.writtenAs key)[1]? = some (o.writtenAs key)[1] :=
      List.getElem?_eq_getElem twice
    refine ⟨_, second, ?_⟩
    rw [places, once single, second]
    rfl
  · rw [places]
    cases list : field.type.isList with
    | true =>
      refine flatMap_eq_nil_iff.2 fun e _ => ?_
      simp [repeatedProperty, list]
    | false =>
      have few : (o.writtenAs key).length ≤ 1 := by simpa [list] using quiet
      rw [once list, List.getElem?_eq_none few]
      rfl

/-- A number that is written three times, once with a mark, and a list that is written twice. -/
theorem repetition_reported_once_marked :
    let d := checkFile rosterSchema {} ⟨"f", "[A] k=1; !k=2; Name=x; Name=y; k=3;"⟩
    ∃ o ∈ d.objects, (o.writtenAs "k").map (·.1) = ["k", "!k", "k+"] ∧
      d.messages.filter (·.repeats o "k") = [.about .warning .duplicateProperty
        "'k' is defined 3 times; the engine keeps every value" "f" ⟨⟨1, 9⟩, ⟨1, 11⟩⟩] ∧
      (o.writtenAs "Name").length = 2 ∧ d.messages.filter (·.repeats o "Name") = [] := by
  intro d
  have found : ∃ o ∈ d.objects, o.typeName = "A" ∧ o.file = "f" ∧
      (o.writtenAs "k").map (·.1) = ["k", "!k", "k+"] ∧
      (o.writtenAs "k")[1]?.map (·.2.nameSpan.toSpan) = some ⟨⟨1, 9⟩, ⟨1, 11⟩⟩ ∧
      (o.writtenAs "Name").length = 2 := by decide +kernel
  obtain ⟨o, ho, htype, hfile, keys, place, names⟩ := found
  have hclass : rosterSchema.objects.classOfType? o.typeName =
      some ⟨"A", [⟨"k", .integer, false, none, false⟩,
        ⟨"Name", .list .string, false, none, false⟩]⟩ := by
    rw [htype]
    rfl
  have thrice : (o.writtenAs "k").length = 3 := by simpa using congrArg List.length keys
  have reported := (repetition_reported_once rosterSchema {} _).1 o ho _ hclass
  obtain ⟨second, hsecond, message⟩ := (reported "k" ⟨"k", .integer, false, none, false⟩
    (by decide) rfl).1 rfl (by omega)
  have span : second.2.nameSpan.toSpan = ⟨⟨1, 9⟩, ⟨1, 11⟩⟩ := by simpa [hsecond] using place
  refine ⟨o, ho, keys, ?_, names, (reported "Name" ⟨"Name", .list .string, false, none, false⟩
    (by decide) rfl).2 (.inl rfl)⟩
  rw [message, thrice, hfile, span]
  rfl

end ModCheck
