import ModCheck.Proofs.IssueTexts
import ModCheck.Report.Summary

/-
  Annotations and lines. An annotation holds the text of its message as it is, and a few messages
  repeat a part of a value, which may go over lines. Names, keys and types of a file are on one line
  (`words_of_mem_objects`), so an annotation of a validation breaks its line only inside such a part
  or inside a name of the schema (`annotation_breaks_iff`).
-/

namespace ModCheck

open List

/-! ## Words of a file -/

section

variable {source file : String}

theorem not_mem_kept {t : Token}
    (ht : t ∈ (blocksOf (Token.scan source)).flatMap Block.tokens) : '\n' ∉ t.text.toList := by
  obtain ⟨solid, sane⟩ := kept_solid source ht
  exact (sane.solid solid).oneLine

theorem not_mem_base_plusKey {key : String} (h : '\n' ∉ key.toList) (n : Nat) :
    '\n' ∉ (Key.base (plusKey key n)).toList := by
  have subset (cs : List Char) : baseChars cs ⊆ cs := by
    have kept : (cs.reverse.dropWhile (· == '+')).reverse ⊆ cs := by
      intro c hc
      exact mem_reverse.1 ((dropWhile_sublist _).subset (mem_reverse.1 hc))
    unfold baseChars
    split
    · next rest e =>
      rw [e] at kept
      exact fun c hc => kept (mem_cons_of_mem _ hc)
    · exact kept
  rw [Key.base, String.toList_ofList]
  exact fun hmem => absurd (subset _ hmem) (by simp [plusKey, h])

/-- The words of an object are on one line each; a value that is not empty fills its span. -/
theorem words_of_mem_objects {o : Object} (ho : o ∈ (Document.parse source file).objects) :
    o.file = file ∧ '\n' ∉ o.typeName.toList ∧ ∀ e ∈ o.properties,
      '\n' ∉ (Key.base e.1).toList ∧
        (e.2.value ≠ "" → e.2.valueSpan.stop = e.2.valueSpan.start.after e.2.value.toList) := by
  obtain ⟨b, hb, name, closed, heading, typeName, -, hfile, origin⟩ := object_origin ho
  refine ⟨hfile, ?_, fun e he => ?_⟩
  · rw [typeName]
    refine not_mem_kept (mem_flatMap_of_mem hb ?_)
    simp [Block.tokens, heading, Heading.tokens]
  · obtain ⟨st, hst, key, n, stated, stored⟩ := origin e.1 e.2 he
    refine ⟨?_, value_stop hb hst stated⟩
    obtain ⟨token, equals, value, ending, due, rfl, rfl, -⟩ := assignment_of_property? stated
    rw [stored]
    exact not_mem_base_plusKey (not_mem_kept (mem_kept source (mem_flatMap_of_mem hb hst)
      mem_cons_self)) n

end

/-! ## Messages -/

/-- A message that repeats the part of a value at its span, in quotes. -/
structure Message.Repeats (m : Message) (p : Property) (part : List Char) : Prop where
  code : ∃ code : Code, m.code = code.text ∧ code.repeats = true
  here : ∃ r : CharRange, r.Holds p.value.toList part ∧
    m.span = some (r.toSpan p.value.toList p.valueSpan.start)
  quoted : ∃ before after, m.text = before ++ "'" ++ String.ofList part ++ "'" ++ after

/-- Why the text of a message goes over lines. -/
inductive Message.Breaks (schema : Schema) (files : List SourceFile) (m : Message) : Prop
  | value {f : SourceFile} {o : Object} {e : String × Property} {part : List Char}
      (hf : f ∈ files) (ho : o ∈ (Document.parse f.source f.file).objects)
      (he : e ∈ o.properties) (place : m.file = f.file) (hpart : '\n' ∈ part)
      (repeats : m.Repeats e.2 part) : Breaks schema files m
  | name {name : String} (h : schema.Names name) (hname : '\n' ∈ name.toList)
      (held : name.toList <:+: m.text.toList) : Breaks schema files m

theorem Message.Breaks.mem_text {schema : Schema} {files : List SourceFile} {m : Message}
    (h : m.Breaks schema files) : '\n' ∈ m.text.toList := by
  cases h with
  | value _ _ _ _ hpart repeats =>
    obtain ⟨before, after, e⟩ := repeats.quoted
    simp [e, hpart]
  | name _ hname held => exact held.subset hname

/-- A message about a file whose label is on one line, whose text goes over lines only for a
reason. -/
structure Message.Lined (schema : Schema) (files : List SourceFile) (m : Message) : Prop where
  file : '\n' ∉ m.file.toList
  code : '\n' ∉ m.code.toList
  text : '\n' ∈ m.text.toList → m.Breaks schema files

@[simp]
theorem not_mem_codeText (code : Code) : '\n' ∉ code.text.toList := by
  unfold Code.text
  split <;> simp

@[simp]
theorem not_mem_kindLabel (kind : TokenKind) : '\n' ∉ kind.label.toList := by
  unfold TokenKind.label
  split <;> simp

section

variable {schema : Schema} {options : Options} {files : List SourceFile} {m : Message}

theorem Message.Lined.of_explained (h : '\n' ∉ m.file.toList ∧ '\n' ∉ m.code.toList)
    (explained : Explained schema.Names m.text) : m.Lined schema files := by
  refine ⟨h.1, h.2, fun hmem => ?_⟩
  obtain ⟨name, hname, hbreak, held⟩ := explained hmem
  exact .name hname hbreak held

theorem Message.Lined.of_not_mem
    (h : '\n' ∉ m.file.toList ∧ '\n' ∉ m.code.toList ∧ '\n' ∉ m.text.toList) :
    m.Lined schema files :=
  .of_explained ⟨h.1, h.2.1⟩ (explained_of_not_mem h.2.2)

theorem lined_text {source file : String} (label : '\n' ∉ file.toList)
    (h : AboutText file (Token.scan source) m) : m.Lined schema files := by
  cases h with
  | @stray t ht newline comment =>
    obtain ⟨hscan, solid⟩ := stray_solid ht newline comment
    have word := (((laid_scan source).sane hscan).solid solid).oneLine
    exact .of_not_mem (by simp [Message.about, label, word])
  | @block b _ hb h =>
    have words {t : Token} (ht : t ∈ b.tokens) : '\n' ∉ t.text.toList :=
      not_mem_kept (mem_flatMap_of_mem hb ht)
    have stated {st : Statement} (hst : st ∈ b.statements) {t : Token} (ht : t ∈ st.tokens) :
        '\n' ∉ t.text.toList :=
      not_mem_kept (mem_kept source (mem_flatMap_of_mem hb hst) ht)
    cases h with
    | unnamed => exact .of_not_mem (by simp [Message.about, label])
    | @unclosed name hn =>
      have word := words (t := name) (by simp [Block.tokens, hn, Heading.tokens])
      exact .of_not_mem (by simp [Message.about, label, word])
    | unended hst =>
      exact .of_not_mem (by simp [Message.about, label, stated hst mem_cons_self])
    | bare hst => exact .of_not_mem (by simp [Message.about, label, stated hst mem_cons_self])
    | stray hst => exact .of_not_mem (by simp [Message.about, label, stated hst mem_cons_self])

section

variable {f : SourceFile} (hf : f ∈ files) (label : '\n' ∉ f.file.toList) {o : Object}
  (ho : o ∈ (Document.parse f.source f.file).objects)
include hf label ho

theorem lined_property {c : ObjectClass} (hc : schema.objects.classOfType? o.typeName = some c)
    {e : String × Property} (he : e ∈ o.properties) (h : AboutProperty schema options o c e m) :
    m.Lined schema files := by
  obtain ⟨hfile, typeName, words⟩ := words_of_mem_objects ho
  have key := (words e he).1
  rw [← hfile] at label
  cases h with
  | unknown => exact .of_not_mem (by simp [unknownProperty, Message.about, label, key, typeName])
  | repeated => exact .of_not_mem (by simp [Message.about, label, key])
  | marked hf =>
    refine .of_explained (by simp [Message.about, label]) ?_
    exact (explained_of_not_mem (by simp [key])).append (explained_name (.fieldType hc hf))
  | @value field issue hfield hi =>
    refine ⟨label, not_mem_codeText _, fun hmem => ?_⟩
    have traced := (valueIssue_of_mem hi).traced key fun name => .enumeration hc hfield
    rcases traced hmem with ⟨part, hpart, repeats⟩ | ⟨name, hname, hbreak, held⟩
    · exact .value hf ho he hfile hpart
        ⟨⟨_, rfl, repeats.code⟩, ⟨_, repeats.here, rfl⟩, repeats.quoted⟩
    · exact .name hname hbreak held

theorem lined_object {before : List Object} (h : AboutObject schema options before o m) :
    m.Lined schema files := by
  obtain ⟨hfile, typeName, -⟩ := words_of_mem_objects ho
  have here : '\n' ∉ o.file.toList := by rwa [hfile]
  cases h with
  | unknown => exact .of_not_mem (by simp [unknownType, Message.about, here, typeName])
  | identifier => exact .of_not_mem (by simp [Message.about, here, typeName, Key.id])
  | copy => exact .of_not_mem (by simp [Message.about, here, typeName, Key.copy])
  | misplaced ht =>
    refine .of_explained (by simp [misplacement, Message.about, here]) ?_
    refine (explained_of_not_mem (by simp [typeName])).append ?_
    exact explained_intercalate (by simp) fun name hname => explained_name (.parent ht hname)
  | property hc he about => exact lined_property hf label ho hc he about

end

theorem lined_repeatedIds (labels : ∀ f ∈ files, '\n' ∉ f.file.toList)
    (h : m ∈ repeatedIds (files.map (checkFile schema options))) : m.Lined schema files := by
  obtain ⟨typeName, id, members, p, o, ho, carried, hp, rfl⟩ := exists_of_mem_repeatedIds h
  have source {u : Object} (hu : u ∈ members) : ∃ f ∈ files,
      u ∈ (Document.parse f.source f.file).objects := by
    obtain ⟨d, hd, hu⟩ := mem_flatMap.1 (carried u hu).1
    obtain ⟨f, hf, rfl⟩ := mem_map.1 hd
    exact ⟨f, hf, hu⟩
  obtain ⟨f, hf, hof⟩ := source ho
  obtain ⟨hfile, word, words⟩ := words_of_mem_objects hof
  obtain ⟨-, rfl, hid⟩ := carried o ho
  obtain ⟨l, r, split, -⟩ := lookup_eq_some_iff.1 hp
  have he : (Key.id, p) ∈ o.properties := by simp [split]
  -- the identifier is the value of its property, and not empty
  obtain ⟨value, filled⟩ := Option.filter_eq_some_iff.1 hid
  rw [Object.value?, hp] at value
  obtain rfl : p.value = id := Option.some.inj value
  have filled : p.value ≠ "" := by simpa using filled
  have lines : Explained schema.Names
      (", ".intercalate ((members.map idLine).map RelatedLine.display)) := by
    refine explained_intercalate (by simp) fun text htext => explained_of_not_mem ?_
    obtain ⟨line, hline, rfl⟩ := mem_map.1 htext
    obtain ⟨u, hu, rfl⟩ := mem_map.1 hline
    obtain ⟨g, hg, hug⟩ := source hu
    have label := labels g hg
    rw [← (words_of_mem_objects hug).1] at label
    simp [RelatedLine.display, idLine, label]
  refine ⟨by simpa [Message.about, hfile] using labels f hf, not_mem_codeText _, fun hmem => ?_⟩
  by_cases hvalue : '\n' ∈ p.value.toList
  · refine .value hf hof he hfile hvalue ⟨⟨.duplicateId, rfl, rfl⟩, ?_, ?_⟩
    · refine ⟨⟨0, p.value.toList.length⟩, ⟨[], [], by simp, by simp⟩, ?_⟩
      rw [CharRange.toSpan_eq (Nat.zero_le _), take_length, ← (words _ he).2 filled]
      rfl
    · refine ⟨"Duplicate ID ", " for [" ++ o.typeName ++ "] at " ++
        ", ".intercalate ((members.map idLine).map RelatedLine.display), ?_⟩
      simp [Message.about, Key.id, ← String.toList_inj]
  · have first : '\n' ∉ ("Duplicate " ++ Key.id ++ " '" ++ p.value ++ "' for [" ++ o.typeName
        ++ "] at ").toList := by
      simp [Key.id, hvalue, word]
    obtain ⟨name, hname, hbreak, held⟩ := ((explained_of_not_mem first).append lines) hmem
    exact .name hname hbreak held

theorem lined_validate (labels : ∀ f ∈ files, '\n' ∉ f.file.toList)
    (h : m ∈ (validate schema options files).all) : m.Lined schema files := by
  rcases about_of_mem_validate h with ⟨f, hf, about | ⟨us, o, vs, split, about⟩⟩ | h
  · exact lined_text (labels f hf) about
  · exact lined_object hf (labels f hf) (by simp [split]) about
  · exact lined_repeatedIds labels h

end

/-! ## Annotations -/

theorem mem_annotate_iff (m : Message) :
    '\n' ∈ (Report.annotate m).toList ↔
      '\n' ∈ m.file.toList ∨ '\n' ∈ m.text.toList ∨ '\n' ∈ m.code.toList := by
  have level : '\n' ∉ (Report.annotationLevel m.severity).toList := by
    cases m.severity <;> decide
  unfold Report.annotate
  split
  · simp [level]
  · split <;> simp [level]

/-- As many lines as messages are printed exactly if no annotation goes over lines. -/
theorem count_checkAnnotations_eq_iff (reported : List Message) :
    (Report.checkAnnotations reported).toList.count '\n' = reported.length ↔
      ∀ m ∈ reported, '\n' ∉ (Report.annotate m).toList := by
  have count_cons (m : Message) (ms : List Message) :
      (Report.checkAnnotations (m :: ms)).toList.count '\n' =
        (Report.annotate m).toList.count '\n' + 1 +
          (Report.checkAnnotations ms).toList.count '\n' := by
    simp [Report.checkAnnotations]
    omega
  have le (ms : List Message) :
      ms.length ≤ (Report.checkAnnotations ms).toList.count '\n' := by
    induction ms with
    | nil => exact Nat.zero_le _
    | cons m ms ih =>
      rw [count_cons, length_cons]
      omega
  induction reported with
  | nil => simp [Report.checkAnnotations]
  | cons m ms ih =>
    have := le ms
    rw [count_cons, forall_mem_cons, length_cons]
    refine Iff.trans ?_ (and_congr count_eq_zero ih)
    omega

/-- With labels on one line, an annotation of a validation goes over lines exactly if its message
repeats a part of a value that does, or a name of the schema that does; without such messages, and
only then, as many lines are printed as messages. -/
theorem annotation_breaks_iff (schema : Schema) (options : Options) (files : List SourceFile)
    (labels : ∀ f ∈ files, '\n' ∉ f.file.toList) :
    (∀ m ∈ (validate schema options files).all,
      '\n' ∈ (Report.annotate m).toList ↔ m.Breaks schema files) ∧
    ∀ reported, reported ⊆ (validate schema options files).all →
      ((Report.checkAnnotations reported).toList.count '\n' = reported.length ↔
        ∀ m ∈ reported, ¬ m.Breaks schema files) := by
  have breaks : ∀ m ∈ (validate schema options files).all,
      '\n' ∈ (Report.annotate m).toList ↔ m.Breaks schema files := by
    intro m hm
    have lined := lined_validate labels hm
    simp only [mem_annotate_iff, lined.file, lined.code, false_or, or_false]
    exact ⟨lined.text, fun h => h.mem_text⟩
  refine ⟨breaks, fun reported subset => ?_⟩
  rw [count_checkAnnotations_eq_iff]
  exact forall₂_congr fun m hm => not_congr (breaks m (subset hm))

/-- A schema with one type of objects, which have a number. -/
def numberSchema : Schema :=
  { Schema.empty with
    objects :=
      { types := [⟨"A", .definition, some "A", false, true, [], none⟩]
        classes := [⟨"A", [⟨"k", .integer, false, none, false⟩]⟩]
        enums := [] } }

/-- A number over two lines is repeated over two lines. -/
theorem annotation_over_lines :
    (validate numberSchema {} [⟨"m.txt", "[A]\nk=a\nb;"⟩]).all.map Report.annotate =
      ["::error file=m.txt,line=2,col=3,endLine=3::" ++
        "'k' expects an integer, got 'a\nb' (type/integer)"] ∧
    (Report.checkAnnotations
      (validate numberSchema {} [⟨"m.txt", "[A]\nk=a\nb;"⟩]).all).toList.count '\n' = 2 := by
  decide +kernel

/-- Two files with a wrong number each, one of them over two lines. -/
def wrongNumbers : List SourceFile :=
  [⟨"m.txt", "[A]\nk=a\nb;"⟩, ⟨"n.txt", "[A]\nk=c;"⟩]

/-- The annotation of the first number goes over lines, that of the second does not. -/
theorem annotation_breaks_iff_wrongNumbers :
    (∀ f ∈ wrongNumbers, '\n' ∉ f.file.toList) ∧
      (∃ m ∈ (validate numberSchema {} wrongNumbers).all, m.Breaks numberSchema wrongNumbers) ∧
      ∃ m ∈ (validate numberSchema {} wrongNumbers).all,
        m.file = "n.txt" ∧ ¬ m.Breaks numberSchema wrongNumbers := by
  have labels : ∀ f ∈ wrongNumbers, '\n' ∉ f.file.toList := by simp [wrongNumbers]
  obtain ⟨breaks, lines⟩ := annotation_breaks_iff numberSchema {} wrongNumbers labels
  have broken : ((validate numberSchema {} wrongNumbers).all.any fun m =>
      (Report.annotate m).toList.contains '\n') = true := by
    decide +kernel
  have whole : (Report.checkAnnotations ((validate numberSchema {} wrongNumbers).all.filter
      (·.file == "n.txt"))).toList.count '\n' = 1 ∧
      ((validate numberSchema {} wrongNumbers).all.filter (·.file == "n.txt")).length = 1 := by
    decide +kernel
  obtain ⟨m, hm, h⟩ := any_eq_true.1 broken
  obtain ⟨m', one⟩ := length_eq_one_iff.1 whole.2
  have hm' : m' ∈ (validate numberSchema {} wrongNumbers).all.filter (·.file == "n.txt") := by
    simp [one]
  refine ⟨labels, ⟨m, hm, (breaks m hm).1 (by simpa using h)⟩, m', ?_⟩
  obtain ⟨hall, file⟩ := mem_filter.1 hm'
  refine ⟨hall, by simpa using file, (lines _ filter_sublist.subset).1 ?_ m' hm'⟩
  rw [whole.1, whole.2]

end ModCheck
