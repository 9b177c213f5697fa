import ModCheck.Proofs.Closing
import ModCheck.Proofs.FixRun
import ModCheck.Proofs.Renaming
import ModCheck.Proofs.ValueIssues

/-
  Names that are not known. A message about the name of a type or of a field comes from one that is
  not declared (`nameFault_of_code`): the checks of structure, of values and of identifiers report
  under other codes. What it offers is a declared name, behind the mark of the old one
  (`offered_type`, `offered_key`), and a declared name is found again when it is looked up.
-/

namespace ModCheck

open List

variable {c : ObjectClass} {m : Message} {name : String} {o : Object} {schema : ObjectSchema}

/-! ## Messages about names -/

/-- Whether a check is about the name of a type or of a field. -/
def Code.isNaming : Code → Bool
  | .unknownObjectType => true
  | .unknownProperty => true
  | _ => false

/-- A message from a check that is not about the name of a type or of a field. -/
def Message.Aside (m : Message) : Prop :=
  ∃ c : Code, m.code = c.text ∧ c.isNaming = false

theorem Message.Aside.code_ne (h : m.Aside) :
    m.code ≠ Code.unknownObjectType.text ∧ m.code ≠ Code.unknownProperty.text := by
  obtain ⟨c, hc, hn⟩ := h
  rw [hc]
  cases c <;> simp [Code.isNaming, Code.text] at hn ⊢

section

variable (schema : Schema) (options : Options) (source file : String)

/-- The messages about names that are not known. -/
inductive NameFault : Message → Prop
  | type {o : Object} (ho : o ∈ (Document.parse source file).objects)
      (h : schema.objects.type? o.typeName = none) :
      NameFault (unknownType schema.objects options o)
  | property {o : Object} {k : String} {p : Property} {c : ObjectClass}
      (ho : o ∈ (Document.parse source file).objects) (hp : (k, p) ∈ o.properties)
      (hc : schema.objects.classOfType? o.typeName = some c) (h : c.field? (Key.base k) = none) :
      NameFault (unknownProperty options o c k p)

variable {schema options source file}

/-- The messages about a file that is read come from checks of its structure. -/
theorem AboutText.isOfStructure {ts : List Token} (h : AboutText file ts m) :
    ∃ c : Code, m.code = c.text ∧ c.isOfStructure = true := by
  cases h with
  | stray => exact ⟨.unexpectedToken, rfl, rfl⟩
  | block _ h =>
    cases h with
    | unnamed => exact ⟨.missingTypeName, rfl, rfl⟩
    | unclosed => exact ⟨.missingBracket, rfl, rfl⟩
    | unended => exact ⟨.missingSemicolon, rfl, rfl⟩
    | bare => exact ⟨.missingEquals, rfl, rfl⟩
    | stray => exact ⟨.unexpectedToken, rfl, rfl⟩

theorem AboutText.aside {ts : List Token} (h : AboutText file ts m) : m.Aside := by
  obtain ⟨c, hc, hs⟩ := h.isOfStructure
  refine ⟨c, hc, ?_⟩
  cases c <;> simp [Code.isOfStructure] at hs <;> rfl

theorem nameFault_or_aside_object (ho : o ∈ (Document.parse source file).objects)
    {before : List Object} (h : AboutObject schema options before o m) :
    NameFault schema options source file m ∨ m.Aside := by
  cases h with
  | unknown none => exact Or.inl (.type ho none)
  | identifier => exact Or.inr ⟨.missingId, rfl, rfl⟩
  | copy => exact Or.inr ⟨.cloneUnsupported, rfl, rfl⟩
  | misplaced => exact Or.inr ⟨.parentOrder, rfl, rfl⟩
  | property hc he about =>
    cases about with
    | unknown hf => exact Or.inl (.property ho he hc hf)
    | repeated => exact Or.inr ⟨.duplicateProperty, rfl, rfl⟩
    | marked => exact Or.inr ⟨.replaceMarker, rfl, rfl⟩
    | @value _ issue _ hi =>
      have hv := isOfValue_of_mem_valueIssues hi
      refine Or.inr ⟨issue.code, rfl, ?_⟩
      revert hv
      cases issue.code <;> decide

theorem aside_repeatedIds {documents : List Document} (h : m ∈ repeatedIds documents) :
    m.Aside := by
  obtain ⟨_, _, _, _, _, _, _, _, rfl⟩ := exists_of_mem_repeatedIds h
  exact ⟨.duplicateId, rfl, rfl⟩

/-- A message about a name comes from a type or a field that is not declared. -/
theorem nameFault_of_code (h : m ∈ (validate schema options [⟨file, source⟩]).all)
    (hcode : m.code = Code.unknownObjectType.text ∨ m.code = Code.unknownProperty.text) :
    NameFault schema options source file m := by
  have hcases : NameFault schema options source file m ∨ m.Aside := by
    rcases about_of_mem_validate h with ⟨f, hf, about | ⟨us, o, vs, split, about⟩⟩ | h
    · exact Or.inr about.aside
    · rw [mem_singleton.1 hf] at split
      exact nameFault_or_aside_object (by simp [split]) about
    · exact Or.inr (aside_repeatedIds h)
  rcases hcases with hfault | haside
  · exact hfault
  · rcases hcode with e | e
    · exact absurd e haside.code_ne.1
    · exact absurd e haside.code_ne.2

end

/-! ## Names that are declared -/

/-- A name that can stand in a file as it is, without a mark. -/
def IsPlainName (name : List Char) : Prop :=
  IsName name ∧ name.head? ≠ some '!'

/-- The declared names of types and fields can be written in a file. -/
def ObjectSchema.HasPlainNames (schema : ObjectSchema) : Prop :=
  (∀ name ∈ schema.typeNames, IsPlainName name.toList) ∧
    ∀ c ∈ schema.classes, ∀ name ∈ c.concreteNames, IsPlainName name.toList

instance : DecidablePred IsPlainName := fun _ => inferInstanceAs (Decidable (_ ∧ _))

instance (schema : ObjectSchema) : Decidable schema.HasPlainNames :=
  inferInstanceAs (Decidable (_ ∧ _))

theorem type?_of_mem (h : name ∈ schema.typeNames) : schema.type? name ≠ none := by
  obtain ⟨type, htype, rfl⟩ := mem_map.1 h
  intro hnone
  have := find?_eq_none.1 hnone type htype
  simp at this

theorem field?_of_mem (h : name ∈ c.concreteNames) : c.field? name ≠ none := by
  obtain ⟨field, hfield, rfl⟩ := mem_map.1 h
  obtain ⟨hmem, hpattern⟩ := mem_filter.1 hfield
  intro hnone
  have := find?_eq_none.1 (Option.or_eq_none_iff.1 hnone).1 field hmem
  simp [hpattern] at this

theorem class_mem {typeName : String} (h : schema.classOfType? typeName = some c) :
    c ∈ schema.classes := by
  obtain ⟨name, -, hc⟩ := Option.bind_eq_some_iff.1 h
  exact mem_of_find?_eq_some hc

theorem baseChars_marked {cs : List Char} (h : '+' ∉ cs) : baseChars ('!' :: cs) = cs := by
  have hplus : '+' ∉ '!' :: cs := by simpa using h
  rw [baseChars, dropWhile_plus hplus, reverse_reverse]
  rfl

theorem baseChars_unmarked {cs : List Char} (h : '+' ∉ cs) (hm : cs.head? ≠ some '!') :
    baseChars cs = cs := by
  rw [baseChars, dropWhile_plus h, reverse_reverse]
  split
  · simp at hm
  · rfl

/-- The mark of a key. -/
def Key.mark (marked : Bool) : String :=
  if marked then "!" else ""

theorem IsPlainName.isName_mark (h : IsPlainName name.toList) (marked : Bool) :
    IsName (Key.mark marked ++ name).toList := by
  obtain ⟨hn, hmark⟩ := h
  cases marked with
  | false => simpa [Key.mark] using hn
  | true =>
    rw [String.toList_append]
    refine ⟨by decide, fun c hc => ?_⟩
    cases hl : name.toList with
    | nil =>
      rw [hl] at hn
      exact hn.elim
    | cons d ds =>
      rw [hl] at hn hmark hc
      rcases mem_cons.1 hc with rfl | hc
      · by_contra hword
        have := eq_mark_of_isWordStart hn.1 (by simpa using hword)
        exact hmark (by rw [this]; rfl)
      · exact hn.2 c hc

theorem IsPlainName.base_mark (h : IsPlainName name.toList) (marked : Bool) :
    Key.base (Key.mark marked ++ name) = name := by
  have hplus : '+' ∉ name.toList := h.1.isPlainKey
  unfold Key.base
  cases marked with
  | true =>
    have e : (Key.mark true ++ name).toList = '!' :: name.toList := by
      rw [String.toList_append]
      rfl
    rw [e, baseChars_marked hplus, String.ofList_toList]
  | false =>
    have e : (Key.mark false ++ name).toList = name.toList := by simp [Key.mark]
    rw [e, baseChars_unmarked hplus h.2, String.ofList_toList]

/-! ## Names that are offered -/

theorem offered_type {options : Options} {fix : Correction}
    (h : fix ∈ (unknownType schema options o).corrections) :
    ∃ name ∈ schema.typeNames, fix = ⟨o.file, o.typeSpan.toSpan, name⟩ := by
  obtain ⟨name, hname, rfl⟩ := Option.map_eq_some_iff.1 (Option.mem_toList.1 h)
  exact ⟨name, mem_of_bestName hname, rfl⟩

theorem offered_key {options : Options} {k : String} {p : Property} {fix : Correction}
    (h : fix ∈ (unknownProperty options o c k p).corrections) :
    ∃ name ∈ c.concreteNames,
      fix = ⟨o.file, p.nameSpan.toSpan, Key.mark (Key.isMarked k) ++ name⟩ := by
  obtain ⟨name, hname, rfl⟩ := Option.map_eq_some_iff.1 (Option.mem_toList.1 h)
  exact ⟨name, mem_of_bestName hname, rfl⟩

end ModCheck
