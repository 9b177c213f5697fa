import Mathlib.Data.List.Forall2
import ModCheck.Proofs.AllowedPlaceholder
import ModCheck.Proofs.MessageOrigins
import ModCheck.Proofs.QuotedText
import ModCheck.Proofs.RepeatedIds
import ModCheck.Proofs.Suggestions

/-
  What the options of a validation do, and nothing else. Two runs over the same files go through the
  same checks; `Effect` says what has to be shown about the three kinds of messages that read the
  options, and `Effect.rel_runMessages` carries it to all messages of a run. A larger limit for
  suggestions changes what is suggested and keeps every correction; without hints of style the
  messages about tags without arguments are missing; without the comparison of identifiers the
  messages across files are; the address of the documentation is found in its own field only
  (`options_effects`).
-/

namespace ModCheck

open List
open Text (Piece)

/-! ## Issues under two limits -/

/-- An issue under a limit and the same under a larger one: what is suggested may differ, and a
replacement that is offered stays. -/
structure Issue.Widens (i j : Issue) : Prop where
  same : { i with suggestion := j.suggestion, replacement := j.replacement } = j
  kept : ∀ text, i.replacement = some text → j.replacement = some text

theorem widens_parts (steady : Issue → Prop) : PartByPart steady (List.Forall₂ Issue.Widens) where
  nil := .nil
  append h h' := rel_append h h'
  single _ _ := .cons ⟨rfl, fun _ h => h⟩ .nil

theorem widens_same (issues : List Issue) : List.Forall₂ Issue.Widens issues issues :=
  (widens_parts fun _ => True).rel_self fun _ _ => trivial

theorem widens_append {is js is' js' : List Issue} (h : List.Forall₂ Issue.Widens is js)
    (h' : List.Forall₂ Issue.Widens is' js') :
    List.Forall₂ Issue.Widens (is ++ is') (js ++ js') :=
  rel_append h h'

theorem widens_flatMap {α : Type} {f g : α → List Issue} {as : List α}
    (h : ∀ a ∈ as, List.Forall₂ Issue.Widens (f a) (g a)) :
    List.Forall₂ Issue.Widens (as.flatMap f) (as.flatMap g) :=
  (widens_parts fun _ => True).rel_flatMap h

section

variable {d e : Nat} (hde : d ≤ e)

include hde

theorem widens_ofUnknown (code : Code) (text name : String) (names : List String)
    (range : CharRange) : (Issue.ofUnknown d code text name names range).Widens
      (Issue.ofUnknown e code text name names range) :=
  ⟨rfl, fun _ best => bestName_mono hde best⟩

theorem Formula.effect_widens (operators : NameTable Operator) (allowX : Bool)
    (xs : List Argument) :
    Formula.Effect ⟨operators, d, allowX⟩ ⟨operators, e, allowX⟩ xs
      (List.Forall₂ Issue.Widens) where
  toPartByPart := widens_parts _
  operators := rfl
  unknown _ _ _ _ _ _ _ := .cons ⟨rfl, fun _ best => bestName_mono hde best⟩ .nil
  numeric _ _ _ _ := widens_same _

theorem Formula.widens_check (operators : NameTable Operator) (allowX : Bool) (f : Formula) :
    List.Forall₂ Issue.Widens (f.check ⟨operators, d, allowX⟩)
      (f.check ⟨operators, e, allowX⟩) :=
  (Formula.effect_widens hde operators allowX f.allArguments).rel_check f (List.Subset.refl _)

namespace RichText

variable (operators : NameTable Operator) (schema : RichTextSchema) (styleHints : Bool)

theorem widens_argumentIssues (label : String) (spec : TagSpec) (tag : Tag)
    (arguments : List TagArgument) : List.Forall₂ Issue.Widens
      (argumentIssues ⟨operators, schema, d, styleHints⟩ label spec tag arguments)
      (argumentIssues ⟨operators, schema, e, styleHints⟩ label spec tag arguments) := by
  unfold argumentIssues
  dsimp only
  generalize (if arguments.getLast?.any (·.isEmpty) = true then arguments.length - 1 else
    arguments.length) = counted
  split
  · exact widens_same _
  · split
    · exact widens_same _
    · refine widens_append (widens_same _) (widens_flatMap fun q _ => ?_)
      split
      · unfold formulaIssues
        split
        · next f _ =>
          refine forall₂_map_left_iff.2 (forall₂_map_right_iff.2 ?_)
          refine (Formula.widens_check hde operators false f).imp fun i j h => ?_
          exact ⟨congrArg (·.shift q.1.range.start) h.same, h.kept⟩
        · exact widens_same _
      · exact .nil

theorem widens_commandIssues (tag : Tag) : List.Forall₂ Issue.Widens
    (commandIssues ⟨operators, schema, d, styleHints⟩ tag)
    (commandIssues ⟨operators, schema, e, styleHints⟩ tag) := by
  unfold commandIssues
  split
  · exact widens_same _
  · split
    · exact widens_same _
    · dsimp only
      split
      · exact widens_argumentIssues hde operators schema styleHints _ _ _ _
      · exact .cons (widens_ofUnknown hde _ _ _ _ _) .nil

theorem widens_tagIssues (tag : Tag) : List.Forall₂ Issue.Widens
    (tagIssues ⟨operators, schema, d, styleHints⟩ tag)
    (tagIssues ⟨operators, schema, e, styleHints⟩ tag) := by
  unfold tagIssues
  dsimp only
  split
  · exact widens_same _
  · refine widens_append (widens_same _) ?_
    split
    · exact .cons (widens_ofUnknown hde _ _ _ _ _) .nil
    · split
      · exact widens_commandIssues hde operators schema styleHints tag
      · exact widens_argumentIssues hde operators schema styleHints _ _ _ _

end RichText

theorem widens_scalarIssue (schema : ObjectSchema) (key : String) (piece : Piece)
    (type : FieldType) : List.Forall₂ Issue.Widens (scalarIssue? schema d key piece type).toList
      (scalarIssue? schema e key piece type).toList := by
  cases type with
  | enumeration name =>
    unfold scalarIssue?
    dsimp only
    split
    · exact .nil
    · exact .cons (widens_ofUnknown hde _ _ _ _ _) .nil
  | _ => exact widens_same _

theorem widens_valueIssues (schema : Schema) (options : Options) (key value : String)
    (field : Field) : List.Forall₂ Issue.Widens
      (valueIssues schema { options with maxDistance := d } key value field)
      (valueIssues schema { options with maxDistance := e } key value field) := by
  unfold valueIssues
  split
  · exact .nil
  · unfold typedIssues
    split
    · unfold formulaValueIssues
      split
      · exact Formula.widens_check hde _ _ _
      · exact widens_same _
    · refine widens_flatMap fun segment _ => ?_
      cases segment with
      | text source range => exact .nil
      | tag tag => exact RichText.widens_tagIssues hde _ _ _ tag
    · unfold listIssues
      split
      · exact widens_same _
      · rw [filterMap_eq_flatMap_toList, filterMap_eq_flatMap_toList]
        exact widens_flatMap fun piece _ => widens_scalarIssue hde _ _ _ _
    · split
      · exact widens_same _
      · exact widens_scalarIssue hde _ _ _ _

end

/-! ## Hints of style -/

theorem filter_of_ne_style {issues : List Issue} (h : ∀ i ∈ issues, i.code ≠ .zeroArgumentStyle) :
    issues.filter (·.code != .zeroArgumentStyle) = issues :=
  filter_eq_self.2 fun i hi => by simpa using h i hi

/-- The issues of a formula are not about tags. -/
theorem Formula.code_ne_style {source : String} {f : Formula} (h : parse source = .ok f)
    (s : Checker) : ∀ i ∈ f.check s, i.code ≠ .zeroArgumentStyle := by
  intro i hi style
  -- seen as issues of a text without tags, they can name none
  have aims : i.Aims "" .formula source.toList := aims_parse h s i hi
  obtain ⟨quoted, -, quotes⟩ := aims
  rw [Issue.Quotes, style] at quotes
  obtain ⟨⟨tag, mem, -⟩, -⟩ := quotes
  obtain ⟨before, inner, after, e, -⟩ := RichText.mem_segmentsFrom mem
  simp at e

theorem RichText.formulaIssues_ne_style (s : Checker) (argument : TagArgument) :
    ∀ i ∈ formulaIssues s argument, i.code ≠ .zeroArgumentStyle := by
  intro i hi
  unfold formulaIssues at hi
  split at hi
  · next f hf =>
    obtain ⟨j, hj, rfl⟩ := mem_map.1 hi
    exact Formula.code_ne_style hf _ j hj
  · rw [mem_singleton.1 hi]
    simp

theorem RichText.filter_argumentIssues (operators : NameTable Operator) (schema : RichTextSchema)
    (limit : Nat) (label : String) (spec : TagSpec) (tag : Tag) (arguments : List TagArgument) :
    (argumentIssues ⟨operators, schema, limit, true⟩ label spec tag arguments).filter
        (·.code != .zeroArgumentStyle) =
      argumentIssues ⟨operators, schema, limit, false⟩ label spec tag arguments := by
  unfold argumentIssues
  dsimp only
  generalize (if arguments.getLast?.any (·.isEmpty) = true then arguments.length - 1 else
    arguments.length) = counted
  split
  · rfl
  · split
    · rfl
    · rw [filter_append]
      congr 1
      · split <;> rfl
      · refine filter_of_ne_style fun i hi => ?_
        obtain ⟨q, -, hi⟩ := mem_flatMap.1 hi
        split at hi
        · exact formulaIssues_ne_style _ q.1 i hi
        · simp at hi

theorem RichText.filter_tagIssues (operators : NameTable Operator) (schema : RichTextSchema)
    (limit : Nat) (tag : Tag) :
    (tagIssues ⟨operators, schema, limit, true⟩ tag).filter (·.code != .zeroArgumentStyle) =
      tagIssues ⟨operators, schema, limit, false⟩ tag := by
  unfold tagIssues
  dsimp only
  split
  · rfl
  · rw [filter_append]
    congr 1
    · refine filter_of_ne_style fun i hi => ?_
      obtain ⟨x, -, rfl⟩ := mem_map.1 hi
      simp [bracketIssue]
    · split
      · rfl
      · split
        · unfold commandIssues
          split
          · rfl
          · split
            · rfl
            · dsimp only
              split
              · exact filter_argumentIssues operators schema limit _ _ _ _
              · rfl
        · exact filter_argumentIssues operators schema limit _ _ _ _

theorem partsCode_ne_style (type : FieldType) : partsCode type ≠ .zeroArgumentStyle := by
  unfold partsCode
  split <;> simp

/-- Without hints of style the issues of a value are the others. -/
theorem filter_valueIssues (schema : Schema) (options : Options) (key value : String)
    (field : Field) :
    (valueIssues schema { options with styleHints := true } key value field).filter
        (·.code != .zeroArgumentStyle) =
      valueIssues schema { options with styleHints := false } key value field := by
  by_cases rich : field.type = .richText
  · unfold valueIssues
    rw [rich]
    split
    · rfl
    · rw [typedIssues, RichText.check, filter_flatMap]
      refine flatMap_congr fun segment _ => ?_
      cases segment with
      | text source range => rfl
      | tag tag => exact RichText.filter_tagIssues _ _ _ tag
  · have same : valueIssues schema { options with styleHints := true } key value field =
        valueIssues schema { options with styleHints := false } key value field := by
      unfold valueIssues typedIssues
      split <;> [rfl; split <;> first | rfl | contradiction]
    rw [filter_of_ne_style, same]
    intro i hi
    cases valueIssue_of_mem hi with
    | formula parsed hi => exact Formula.code_ne_style parsed _ i hi
    | tag ht => exact absurd ht rich
    | word _ he => cases he <;> simp [pieceIssue]
    | count => exact partsCode_ne_style _
    | groups => exact partsCode_ne_style _
    | component => exact partsCode_ne_style _
    | _ => simp [Issue.ofUnknown]

/-! ## Messages that no option changes -/

/-- A message that a run reports in the same way under all options. -/
structure Message.Steady (m : Message) : Prop where
  code : ∃ c : Code, m.code = c.text ∧ c ≠ .zeroArgumentStyle
  within : m.crossFile = false

theorem text_eq_style {c : Code} :
    c.text = Code.zeroArgumentStyle.text ↔ c = .zeroArgumentStyle := by
  cases c <;> simp [Code.text]

theorem code_ne_style {m : Message} (h : ∃ c : Code, m.code = c.text ∧ c ≠ .zeroArgumentStyle) :
    (m.code != Code.zeroArgumentStyle.text) = true := by
  obtain ⟨c, hc, ne⟩ := h
  simpa [hc, text_eq_style] using ne

theorem steady_parse (source file : String) :
    ∀ m ∈ (Document.parse source file).messages, m.Steady := by
  intro m h
  cases about_of_mem_parse h with
  | stray => exact ⟨⟨.unexpectedToken, rfl, by simp⟩, rfl⟩
  | block _ h =>
    cases h with
    | unnamed => exact ⟨⟨.missingTypeName, rfl, by simp⟩, rfl⟩
    | unclosed => exact ⟨⟨.missingBracket, rfl, by simp⟩, rfl⟩
    | unended => exact ⟨⟨.missingSemicolon, rfl, by simp⟩, rfl⟩
    | bare => exact ⟨⟨.missingEquals, rfl, by simp⟩, rfl⟩
    | stray => exact ⟨⟨.unexpectedToken, rfl, by simp⟩, rfl⟩

/-- The messages about an object itself: they read the schema alone. -/
theorem steady_object (schema : ObjectSchema) (type : ObjectType) (before : List Object)
    (o : Object) :
    ∀ m ∈ missingId type o ++ unsupportedClones type o ++ misplaced schema type before o,
      m.Steady := by
  intro m h
  simp only [mem_append] at h
  rcases h with (h | h) | h
  · unfold missingId at h
    split at h
    · rw [mem_singleton.1 h]
      exact ⟨⟨.missingId, rfl, by simp⟩, rfl⟩
    · simp at h
  · unfold unsupportedClones at h
    split at h
    · simp at h
    · obtain ⟨entry, -, rfl⟩ := mem_map.1 h
      exact ⟨⟨.cloneUnsupported, rfl, by simp⟩, rfl⟩
  · unfold misplaced at h
    split at h
    · simp at h
    · rw [mem_singleton.1 h]
      exact ⟨⟨.parentOrder, rfl, by simp⟩, rfl⟩

/-- The messages about a key that is a field. -/
theorem steady_key (o : Object) (field : Field) (stored : String) (p : Property) :
    ∀ m ∈ repeatedProperty o field stored p ++ uselessMark o field stored p, m.Steady := by
  intro m h
  rcases mem_append.1 h with h | h
  · unfold repeatedProperty at h
    split at h
    · rw [mem_singleton.1 h]
      exact ⟨⟨.duplicateProperty, rfl, by simp⟩, rfl⟩
    · simp at h
  · unfold uselessMark at h
    split at h
    · rw [mem_singleton.1 h]
      exact ⟨⟨.replaceMarker, rfl, by simp⟩, rfl⟩
    · simp at h

/-! ## Two runs -/

/-- The messages of a run before they are sorted by severity. -/
def runMessages (schema : Schema) (options : Options) (fs : List SourceFile) : List Message :=
  (fs.map (checkFile schema options)).flatMap (·.messages) ++
    if options.checkDuplicateIds then repeatedIds (fs.map (checkFile schema options)) else []

theorem validate_eq (schema : Schema) (options : Options) (fs : List SourceFile) :
    validate schema options fs = .ofMessages (runMessages schema options fs) :=
  rfl

/-- The comparison across files reads objects only, and these do not depend on the options. -/
theorem repeatedIds_checkFile (schema : Schema) (o₁ o₂ : Options) (fs : List SourceFile) :
    repeatedIds (fs.map (checkFile schema o₁)) = repeatedIds (fs.map (checkFile schema o₂)) := by
  unfold repeatedIds
  rw [flatMap_map, flatMap_map]
  rfl

/-- A relation between the messages of a run under the options `o₁` and of one under `o₂`, shown for
each kind of message that reads the options. -/
structure Effect (schema : Schema) (o₁ o₂ : Options) (R : List Message → List Message → Prop) :
    Prop extends PartByPart Message.Steady R where
  type : ∀ o, R [unknownType schema.objects o₁ o] [unknownType schema.objects o₂ o]
  key : ∀ o c stored p, R [unknownProperty o₁ o c stored p] [unknownProperty o₂ o c stored p]
  value : ∀ className key value field origin file,
    R (valueMessages schema o₁ className key value field origin file)
      (valueMessages schema o₂ className key value field origin file)

namespace Effect

variable {schema : Schema} {o₁ o₂ : Options} {R : List Message → List Message → Prop}
  (E : Effect schema o₁ o₂ R)

include E

theorem rel_propertyMessages (o : Object) (c : ObjectClass) (stored : String) (p : Property) :
    R (propertyMessages schema o₁ o c stored p) (propertyMessages schema o₂ o c stored p) := by
  unfold propertyMessages
  dsimp only
  split
  · exact E.nil
  · split
    · exact E.key o c stored p
    · exact E.append (E.rel_self (steady_key _ _ _ _)) (E.value _ _ _ _ _ _)

theorem rel_objectMessages (before : List Object) (o : Object) :
    R (objectMessages schema o₁ before o) (objectMessages schema o₂ before o) := by
  unfold objectMessages
  split
  · exact E.type o
  · refine E.append (E.rel_self (steady_object _ _ _ _)) ?_
    split
    · exact E.nil
    · refine E.rel_flatMap fun entry _ => ?_
      exact E.rel_propertyMessages o _ entry.1 entry.2

theorem rel_objectsMessages (before os : List Object) :
    R (objectsMessages schema o₁ before os) (objectsMessages schema o₂ before os) := by
  induction os generalizing before with
  | nil => exact E.nil
  | cons o os ih => exact E.append (E.rel_objectMessages before o) (ih (o :: before))

/-- What holds of the messages of each kind holds of those about all files. -/
theorem rel_fileMessages (fs : List SourceFile) :
    R ((fs.map (checkFile schema o₁)).flatMap (·.messages))
      ((fs.map (checkFile schema o₂)).flatMap (·.messages)) := by
  rw [flatMap_map, flatMap_map]
  refine E.rel_flatMap fun f _ => ?_
  exact E.append (E.rel_self (steady_parse f.source f.file))
    (E.rel_objectsMessages [] (Document.parse f.source f.file).objects)

/-- The same for a whole run, if the identifiers are compared in both or in none. -/
theorem rel_runMessages (hids : o₁.checkDuplicateIds = o₂.checkDuplicateIds)
    (hR : ∀ documents, R (repeatedIds documents) (repeatedIds documents)) (fs : List SourceFile) :
    R (runMessages schema o₁ fs) (runMessages schema o₂ fs) := by
  refine E.append (E.rel_fileMessages fs) ?_
  rw [hids, repeatedIds_checkFile schema o₁ o₂]
  split
  · exact hR _
  · exact E.nil

end Effect

theorem mem_repeatedIds_crossFile {documents : List Document} {m : Message}
    (h : m ∈ repeatedIds documents) : m.code = Code.duplicateId.text ∧ m.crossFile = true := by
  obtain ⟨_, _, _, _, _, _, _, _, rfl⟩ := exists_of_mem_repeatedIds h
  exact ⟨rfl, rfl⟩

/-! ## What each option does to the messages -/

/-- A message under a limit for suggestions and the same under a larger one. -/
structure Message.Widens (m n : Message) : Prop where
  same : { m with suggestion := n.suggestion, corrections := n.corrections } = n
  kept : m.corrections ⊆ n.corrections

/-- A message but for the address of the documentation. -/
def Message.withoutUrl (m : Message) : Message :=
  { m with documentationUrl := none }

theorem Message.Widens.severity {m n : Message} (h : m.Widens n) : m.severity = n.severity := by
  rw [← h.same]

/-- A name that is offered stays, whatever is made of it. -/
theorem offered_subset {α : Type} {f : String → α} {offer offer' : Option String}
    (h : ∀ name, offer = some name → offer' = some name) :
    (offer.map f).toList ⊆ (offer'.map f).toList := by
  intro x hx
  rw [Option.mem_toList, Option.map_eq_some_iff] at hx ⊢
  obtain ⟨name, hname, rfl⟩ := hx
  exact ⟨name, h name hname, rfl⟩

theorem effect_limit (schema : Schema) (options : Options) {d e : Nat} (hde : d ≤ e) :
    Effect schema { options with maxDistance := d } { options with maxDistance := e }
      (List.Forall₂ Message.Widens) where
  nil := .nil
  append := fun h h' => rel_append h h'
  single := fun _ _ => .cons ⟨rfl, fun _ h => h⟩ .nil
  type := fun _ => .cons ⟨rfl, offered_subset fun _ best => bestName_mono hde best⟩ .nil
  key := fun _ _ _ _ => .cons ⟨rfl, offered_subset fun _ best => bestName_mono hde best⟩ .nil
  value := by
    intro className key value field origin file
    refine forall₂_map_left_iff.2 (forall₂_map_right_iff.2 ?_)
    refine (widens_valueIssues hde schema options key value field).imp fun i j h => ?_
    obtain ⟨same, kept⟩ := h
    rw [← same]
    exact ⟨rfl, offered_subset kept⟩

theorem effect_style (schema : Schema) (options : Options) :
    Effect schema { options with styleHints := true } { options with styleHints := false }
      fun xs ys => xs.filter (·.code != Code.zeroArgumentStyle.text) = ys where
  nil := rfl
  append := fun h h' => by rw [filter_append, h, h']
  single := fun _ h => filter_eq_self.2 (forall_mem_singleton.2 (code_ne_style h.code))
  type := fun _ => rfl
  key := fun _ _ _ _ => rfl
  value := by
    intro className key value field origin file
    rw [valueMessages, filter_map, valueMessages, ← filter_valueIssues]
    congr 1
    refine filter_congr fun i _ => ?_
    simp [Issue.inFile, Message.about, bne, text_eq_style]

theorem effect_within (schema : Schema) (options : Options) :
    Effect schema options options fun xs _ => ∀ m ∈ xs, m.crossFile = false where
  nil := by simp
  append := fun h h' m hm => (mem_append.1 hm).elim (h m) (h' m)
  single := fun _ h => forall_mem_singleton.2 h.within
  type := fun _ => forall_mem_singleton.2 rfl
  key := fun _ _ _ _ => forall_mem_singleton.2 rfl
  value := by
    intro className key value field origin file m hm
    obtain ⟨i, -, rfl⟩ := mem_map.1 hm
    rfl

theorem effect_ids (schema : Schema) (options : Options) :
    Effect schema { options with checkDuplicateIds := true }
      { options with checkDuplicateIds := false } Eq where
  nil := rfl
  append := fun h h' => by rw [h, h']
  single := fun _ _ => rfl
  type := fun _ => rfl
  key := fun _ _ _ _ => rfl
  value := fun _ _ _ _ _ _ => rfl

theorem effect_url (schema : Schema) (options : Options) (u v : Option String) :
    Effect schema { options with documentationUrl := u } { options with documentationUrl := v }
      fun xs ys => xs.map Message.withoutUrl = ys.map Message.withoutUrl where
  nil := rfl
  append := fun h h' => by rw [map_append, map_append, h, h']
  single := fun _ _ => rfl
  type := fun _ => rfl
  key := fun _ _ _ _ => rfl
  value := by
    intro className key value field origin file
    rw [valueMessages, valueMessages, map_map, map_map]
    rfl

/-- Without the comparison of identifiers the messages across files are missing. -/
theorem filter_runMessages (schema : Schema) (options : Options) (fs : List SourceFile) :
    (runMessages schema { options with checkDuplicateIds := true } fs).filter (!·.crossFile) =
      runMessages schema { options with checkDuplicateIds := false } fs := by
  have within :=
    (effect_within schema { options with checkDuplicateIds := true }).rel_fileMessages fs
  have files := (effect_ids schema options).rel_fileMessages fs
  have across (documents : List Document) :
      (repeatedIds documents).filter (!·.crossFile) = [] :=
    filter_eq_nil_iff.2 fun m h => by simp [(mem_repeatedIds_crossFile h).2]
  unfold runMessages
  rw [if_pos rfl, if_neg Bool.false_ne_true, filter_append, across, ← files,
    filter_eq_self.2 fun m h => by simp [within m h]]

/-! ## Findings of two runs -/

namespace Findings

/-- Two findings whose messages correspond one by one, in each group. -/
structure Related (R : Message → Message → Prop) (f g : Findings) : Prop where
  errors : List.Forall₂ R f.errors g.errors
  warnings : List.Forall₂ R f.warnings g.warnings
  hints : List.Forall₂ R f.hints g.hints
  info : List.Forall₂ R f.info g.info

/-- The findings that pass a test. -/
def filter (p : Message → Bool) (f : Findings) : Findings :=
  ⟨f.errors.filter p, f.warnings.filter p, f.hints.filter p, f.info.filter p⟩

/-- Each message changed, and left in its group. -/
def map (change : Message → Message) (f : Findings) : Findings :=
  ⟨f.errors.map change, f.warnings.map change, f.hints.map change, f.info.map change⟩

theorem related_ofMessages {R : Message → Message → Prop}
    (hR : ∀ {m n}, R m n → m.severity = n.severity) {xs ys : List Message}
    (h : List.Forall₂ R xs ys) : Related R (ofMessages xs) (ofMessages ys) := by
  have group (s : Severity) :
      List.Forall₂ R (xs.filter (·.severity == s)) (ys.filter (·.severity == s)) :=
    rel_filter (fun m n r => by
      show (m.severity == s) = true ↔ (n.severity == s) = true
      rw [hR r]) h
  exact ⟨group .error, group .warning, group .hint, group .info⟩

theorem filter_ofMessages (p : Message → Bool) (xs : List Message) :
    (ofMessages xs).filter p = ofMessages (xs.filter p) := by
  simp only [filter, ofMessages, filter_filter, Bool.and_comm]

theorem map_ofMessages {change : Message → Message} (h : ∀ m, (change m).severity = m.severity)
    (xs : List Message) : (ofMessages xs).map change = ofMessages (xs.map change) := by
  simp only [map, ofMessages, filter_map, Function.comp_def, h]

end Findings

/-! ## What the options do -/

/-- The options do what they say. A larger limit for suggestions keeps every message, but for what
is suggested, and every correction; the messages that go away without hints of style, or without
the comparison of identifiers, are those about tags without arguments, or those across files; and
another address for the documentation is seen in its own field only. -/
theorem options_effects (schema : Schema) (options : Options) (files : List SourceFile) :
    (∀ d e, d ≤ e → (validate schema { options with maxDistance := d } files).Related
      Message.Widens (validate schema { options with maxDistance := e } files)) ∧
    validate schema { options with styleHints := false } files =
      (validate schema { options with styleHints := true } files).filter
        (·.code != Code.zeroArgumentStyle.text) ∧
    validate schema { options with checkDuplicateIds := false } files =
      (validate schema { options with checkDuplicateIds := true } files).filter (!·.crossFile) ∧
    ∀ u v, (validate schema { options with documentationUrl := u } files).map Message.withoutUrl =
      (validate schema { options with documentationUrl := v } files).map Message.withoutUrl := by
  refine ⟨fun d e hde => ?_, ?_, ?_, fun u v => ?_⟩
  · have run := (effect_limit schema options hde).rel_runMessages rfl
      (fun _ => List.forall₂_same.2 fun _ _ => ⟨rfl, fun _ h => h⟩) files
    exact Findings.related_ofMessages Message.Widens.severity run
  · have run := (effect_style schema options).rel_runMessages rfl
      (fun _ => filter_eq_self.2 fun _ h => ?_) files
    · rw [validate_eq, validate_eq, Findings.filter_ofMessages, run]
    · exact code_ne_style ⟨.duplicateId, (mem_repeatedIds_crossFile h).1, by simp⟩
  · rw [validate_eq, validate_eq, Findings.filter_ofMessages, filter_runMessages]
  · have run := (effect_url schema options u v).rel_runMessages rfl (fun _ => rfl) files
    have severity (m : Message) : m.withoutUrl.severity = m.severity := rfl
    rw [validate_eq, validate_eq, Findings.map_ofMessages severity,
      Findings.map_ofMessages severity, run]

/-- A schema with one type. -/
def actionSchema : Schema :=
  { Schema.empty with
    objects :=
      { types := [⟨"Action", .definition, none, false, true, [], none⟩]
        classes := []
        enums := [] } }

/-- Two files with a misspelled type and the same identifier, without suggestions and with them. -/
theorem options_effects_misspelled :
    let files : List SourceFile := [⟨"a.txt", "[Acton] ID=x;"⟩, ⟨"b.txt", "[Acton] ID=x;"⟩]
    let bare := validate actionSchema { maxDistance := 0 } files
    0 ≤ 3 ∧ bare.errors.length = 3 ∧
      bare.Related Message.Widens (validate actionSchema { maxDistance := 3 } files) := by
  intro files bare
  exact ⟨by decide, by decide +kernel, (options_effects actionSchema {} files).1 0 3 (by decide)⟩

end ModCheck
