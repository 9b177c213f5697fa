import ModCheck.Validation

/-
  Where messages come from. `AboutText`, `AboutProperty` and `AboutObject` have one case for each
  check, with what the check found; every message about a text that is read, about a property or
  about an object is one of them (`about_of_mem_parse`, `about_of_mem_propertyMessages`,
  `about_of_mem_objectMessages`). The messages across files stand at an identifier
  (`exists_of_mem_repeatedIds`). A validation has no others (`about_of_mem_validate`).
-/

namespace ModCheck

open List

variable {m : Message}

/-! ## Texts -/

section

variable (file : String)

/-- The messages that reading a block can give. -/
inductive AboutBlock (b : Block) : Message → Prop
  | unnamed (h : b.heading = .unnamed) :
      AboutBlock b (.about .error .missingTypeName "Expected an object type name after '['" file
        b.opening.span)
  | unclosed {name : Token} (h : b.heading = .named name false) :
      AboutBlock b
        { Message.about .error .missingBracket
            ("Missing ']' after object type '" ++ name.text ++ "'") file name.span with
          corrections := [.insert file name.span.stop "]"] }
  | unended {key equals : Token} {value : List Token} {ending : ValueClose} {due : Bool}
      (h : .assignment key equals value ending due ∈ b.statements)
      (fires : (ending = .loose && due && joinTokens value != [] && !hasTag (joinTokens value)) =
        true) :
      AboutBlock b
        { Message.about .error .missingSemicolon
            ("Missing ';' after value of '" ++ key.text ++ "'") file (valueSpan equals value) with
          corrections := [.insert file (valueSpan equals value).stop ";"] }
  | bare {key : Token} (h : .bareName key ∈ b.statements) :
      AboutBlock b (.about .error .missingEquals
        ("Expected '=' after property name '" ++ key.text ++ "'") file key.span)
  | stray {t : Token} (h : .stray t ∈ b.statements) :
      AboutBlock b (.about .error .unexpectedToken
        ("Unexpected " ++ t.kind.label ++ " '" ++ t.text ++ "' in object body") file t.span)

/-- The messages that reading a text can give. -/
inductive AboutText (ts : List Token) : Message → Prop
  | stray {t : Token} (ht : t ∈ (splitSections ts).1) (newline : t.kind ≠ .newline)
      (comment : t.kind ≠ .comment) :
      AboutText ts (.about .error .unexpectedToken
        ("Unexpected " ++ t.kind.label ++ " '" ++ t.text ++ "' outside object definition") file
        t.span)
  | block {b : Block} {m : Message} (hb : b ∈ (splitSections ts).2.map Section.toBlock)
      (h : AboutBlock file b m) : AboutText ts m

variable {file}

theorem about_of_mem_blockMessages {b : Block} (h : m ∈ b.messages file) : AboutBlock file b m := by
  rcases mem_append.1 h with h | h
  · unfold Block.headingMessages at h
    split at h
    · next unnamed =>
      rw [mem_singleton.1 h]
      exact .unnamed unnamed
    · simp at h
    · next unclosed =>
      rw [mem_singleton.1 h]
      exact .unclosed unclosed
  · obtain ⟨st, hst, h⟩ := mem_flatMap.1 h
    cases st with
    | assignment key equals value ending due =>
      unfold Statement.messages at h
      dsimp only at h
      split at h
      · next fires =>
        rw [mem_singleton.1 h]
        exact .unended hst fires
      · simp at h
    | bareName key =>
      rw [mem_singleton.1 h]
      exact .bare hst
    | stray token =>
      rw [mem_singleton.1 h]
      exact .stray hst

theorem about_of_mem_parse {source : String}
    (h : m ∈ (Document.parse source file).messages) : AboutText file (Token.scan source) m := by
  rcases mem_append.1 h with h | h
  · unfold strayMessages at h
    split at h
    · simp at h
    · next t ht =>
      rw [mem_singleton.1 h]
      have kind : t.kind ≠ .newline ∧ t.kind ≠ .comment := by simpa using find?_some ht
      exact .stray (mem_of_find?_eq_some ht) kind.1 kind.2
  · obtain ⟨b, hb, h⟩ := mem_flatMap.1 h
    exact .block hb (about_of_mem_blockMessages h)

end

/-! ## Objects and properties -/

section

variable (schema : Schema) (options : Options)

/-- The messages that the checks of a property can give. -/
inductive AboutProperty (o : Object) (c : ObjectClass) (e : String × Property) : Message → Prop
  | unknown (h : c.field? (Key.base e.1) = none) :
      AboutProperty o c e (unknownProperty options o c e.1 e.2)
  | repeated {field : Field} (hf : c.field? (Key.base e.1) = some field)
      (single : field.type.isList = false) (h : o.writtenBefore e.1 = 1) :
      AboutProperty o c e (.about .warning .duplicateProperty
        ("'" ++ Key.base e.1 ++ "' is defined " ++ toString (o.countWritten (Key.base e.1))
          ++ " times; the engine keeps every value") o.file e.2.nameSpan.toSpan)
  | marked {field : Field} (hf : c.field? (Key.base e.1) = some field)
      (single : field.type.isList = false) (h : e.1.toList.head? = some '!') :
      AboutProperty o c e
        { Message.about .hint .replaceMarker
            ("'!' only changes list properties; '" ++ Key.base e.1 ++ "' is a "
              ++ field.type.display) o.file e.2.nameSpan.toSpan with
          corrections := [⟨o.file, e.2.nameSpan.toSpan, Key.base e.1⟩] }
  | value {field : Field} {issue : Issue} (hf : c.field? (Key.base e.1) = some field)
      (h : issue ∈ valueIssues schema options (Key.base e.1) e.2.value field) :
      AboutProperty o c e (issue.inFile schema.formulas options e.2.value e.2.valueSpan.start
        o.file (c.name ++ "." ++ Key.base e.1))

/-- The message about an object that follows none of the parents of its type. -/
def misplacement (type : ObjectType) (o : Object) : Message :=
  .about .error .parentOrder
    ("[" ++ o.typeName ++ "] must directly follow one of: " ++ ", ".intercalate type.parents)
    o.file o.typeSpan.toSpan

/-- The messages that the checks of an object can give. -/
inductive AboutObject (before : List Object) (o : Object) : Message → Prop
  | unknown (h : schema.objects.type? o.typeName = none) :
      AboutObject before o (unknownType schema.objects options o)
  | identifier {type : ObjectType} (ht : schema.objects.type? o.typeName = some type)
      (wanted : type.requiresId = true) (h : o.get? Key.id = none) :
      AboutObject before o (.about .error .missingId
        ("[" ++ o.typeName ++ "] requires an " ++ Key.id) o.file o.typeSpan.toSpan)
  | copy {type : ObjectType} {e : String × Property}
      (ht : schema.objects.type? o.typeName = some type) (refused : type.supportsClone = false)
      (he : e ∈ o.properties) (h : Key.base e.1 = Key.copy) :
      AboutObject before o (.about .error .cloneUnsupported
        ("[" ++ o.typeName ++ "] does not support " ++ Key.copy) o.file e.2.nameSpan.toSpan)
  | misplaced {type : ObjectType} (ht : schema.objects.type? o.typeName = some type)
      (some : type.parents ≠ [])
      (h : hasParentBefore schema.objects type.parents before = false) :
      AboutObject before o (misplacement type o)
  | property {c : ObjectClass} {e : String × Property} {m : Message}
      (hc : schema.objects.classOfType? o.typeName = some c) (he : e ∈ o.properties)
      (h : AboutProperty schema options o c e m) : AboutObject before o m

variable {schema options}

theorem about_of_mem_propertyMessages {o : Object} {c : ObjectClass} {e : String × Property}
    (h : m ∈ propertyMessages schema options o c e.1 e.2) :
    AboutProperty schema options o c e m := by
  unfold propertyMessages at h
  dsimp only at h
  split at h
  · simp at h
  · split at h
    · next hf =>
      rw [mem_singleton.1 h]
      exact .unknown hf
    · next field hf =>
      simp only [mem_append] at h
      rcases h with (h | h) | h
      · unfold repeatedProperty at h
        split at h
        · next fires =>
          rw [mem_singleton.1 h]
          simp only [Bool.and_eq_true, beq_iff_eq, Bool.not_eq_true'] at fires
          exact .repeated hf fires.2 fires.1
        · simp at h
      · unfold uselessMark at h
        split at h
        · next fires =>
          rw [mem_singleton.1 h]
          simp only [Bool.and_eq_true, beq_iff_eq, Bool.not_eq_true'] at fires
          exact .marked hf fires.2 fires.1
        · simp at h
      · obtain ⟨issue, hi, rfl⟩ := mem_map.1 h
        exact .value hf hi

theorem misplaced_eq (type : ObjectType) (before : List Object) (o : Object) :
    misplaced schema.objects type before o =
      if type.parents = [] ∨ hasParentBefore schema.objects type.parents before = true then []
      else [misplacement type o] := by
  simp [misplaced, misplacement]

theorem about_of_mem_objectMessages {before : List Object} {o : Object}
    (h : m ∈ objectMessages schema options before o) : AboutObject schema options before o m := by
  unfold objectMessages at h
  split at h
  · next ht =>
    rw [mem_singleton.1 h]
    exact .unknown ht
  · next type ht =>
    simp only [mem_append] at h
    rcases h with ((h | h) | h) | h
    · unfold missingId at h
      split at h
      · next wanted =>
        rw [mem_singleton.1 h]
        obtain ⟨required, none⟩ := Bool.and_eq_true_iff.1 wanted
        exact .identifier ht required (Option.isNone_iff_eq_none.1 none)
      · simp at h
    · unfold unsupportedClones at h
      split at h
      · simp at h
      · next refused =>
        obtain ⟨e, he, rfl⟩ := mem_map.1 h
        obtain ⟨he, copies⟩ := mem_filter.1 he
        exact .copy ht (by simpa using refused) he (by simpa using copies)
    · rw [misplaced_eq] at h
      split at h
      · simp at h
      · next lost =>
        rw [mem_singleton.1 h]
        rw [not_or] at lost
        exact .misplaced ht lost.1 (by simpa using lost.2)
    · split at h
      · simp at h
      · next c hc =>
        obtain ⟨e, he, h⟩ := mem_flatMap.1 h
        refine .property ?_ he (about_of_mem_propertyMessages h)
        rw [ObjectSchema.classOfType?, ht]
        exact hc

/-- The messages about objects that follow each other: those about the later ones know of the
earlier ones. -/
theorem objectsMessages_append (before us vs : List Object) :
    objectsMessages schema options before (us ++ vs) =
      objectsMessages schema options before us ++
        objectsMessages schema options (us.reverse ++ before) vs := by
  induction us generalizing before with
  | nil => rfl
  | cons u us ih =>
    rw [cons_append, objectsMessages, ih, objectsMessages, append_assoc,
      reverse_cons, append_assoc, singleton_append]

theorem about_of_mem_objectsMessages {before os : List Object}
    (h : m ∈ objectsMessages schema options before os) :
    ∃ us o vs, os = us ++ o :: vs ∧ AboutObject schema options (us.reverse ++ before) o m := by
  induction os generalizing before with
  | nil => simp [objectsMessages] at h
  | cons o os ih =>
    rcases mem_append.1 h with h | h
    · exact ⟨[], o, os, rfl, about_of_mem_objectMessages h⟩
    · obtain ⟨us, p, vs, rfl, about⟩ := ih h
      refine ⟨o :: us, p, vs, rfl, ?_⟩
      rwa [reverse_cons, append_assoc]

end

/-! ## Identifiers -/

/-- The message about an identifier that occurs again stands at the identifier of one of the objects
with it, and names all of them. -/
theorem exists_of_mem_repeatedIds {documents : List Document} (h : m ∈ repeatedIds documents) :
    ∃ (typeName id : String) (members : List Object) (p : Property), ∃ o ∈ members,
      (∀ u ∈ members, u ∈ documents.flatMap (·.objects) ∧ u.typeName = typeName ∧
        u.id? = some id) ∧ o.get? Key.id = some p ∧
      m = { Message.about .error .duplicateId
              ("Duplicate " ++ Key.id ++ " '" ++ id ++ "' for [" ++ typeName ++ "] at " ++
                ", ".intercalate ((members.map idLine).map RelatedLine.display)) o.file
              p.valueSpan with
            crossFile := true
            related := members.map idLine } := by
  obtain ⟨⟨typeName, id⟩, -, h⟩ := mem_filterMap.1 h
  generalize hm : ((identified (documents.flatMap (·.objects))).filter
    fun i => (i.typeName, i.id) == (typeName, id)).map (·.object) = members at h
  have carried : ∀ u ∈ members, u ∈ documents.flatMap (·.objects) ∧ u.typeName = typeName ∧
      u.id? = some id := by
    intro u hu
    rw [← hm] at hu
    obtain ⟨i, hi, rfl⟩ := mem_map.1 hu
    obtain ⟨hi, pair⟩ := mem_filter.1 hi
    obtain ⟨o, ho, hid⟩ := mem_filterMap.1 hi
    obtain ⟨id', found, rfl⟩ := Option.map_eq_some_iff.1 hid
    obtain ⟨rfl, rfl⟩ := Prod.mk.inj (eq_of_beq pair)
    exact ⟨ho, rfl, found⟩
  unfold duplicateMessage? at h
  split at h
  · obtain ⟨p, hp, rfl⟩ := Option.map_eq_some_iff.1 h
    exact ⟨typeName, id, _, p, _, by simp, carried, hp, rfl⟩
  · simp at h

/-! ## Files -/

theorem mem_all {ms : List Message} (h : m ∈ (Findings.ofMessages ms).all) : m ∈ ms := by
  simp only [Findings.all, Findings.ofMessages, mem_append, mem_filter] at h
  rcases h with ((h | h) | h) | h <;> exact h.1

/-- A message of a validation is about the text or an object of one of the files, or about an
identifier. -/
theorem about_of_mem_validate {schema : Schema} {options : Options} {files : List SourceFile}
    (h : m ∈ (validate schema options files).all) :
    (∃ f ∈ files, AboutText f.file (Token.scan f.source) m ∨
      ∃ us o vs, (Document.parse f.source f.file).objects = us ++ o :: vs ∧
        AboutObject schema options us.reverse o m) ∨
      m ∈ repeatedIds (files.map (checkFile schema options)) := by
  rcases mem_append.1 (mem_all h) with h | h
  · obtain ⟨d, hd, h⟩ := mem_flatMap.1 h
    obtain ⟨f, hf, rfl⟩ := mem_map.1 hd
    refine Or.inl ⟨f, hf, ?_⟩
    rcases mem_append.1 h with h | h
    · exact Or.inl (about_of_mem_parse h)
    · obtain ⟨us, o, vs, split, about⟩ := about_of_mem_objectsMessages h
      exact Or.inr ⟨us, o, vs, split, by simpa using about⟩
  · split at h
    · exact Or.inr h
    · simp at h

end ModCheck
