import ModCheck.Proofs.ValueReplacements

/-
  What the issues of a value are about and what they offer. All of them come from checks of values,
  none from one of structure, type names or keys. An issue offers a name of the schema or a colon
  (`Issue.Plain`); the one exception is a tag without arguments, behind whose name an equals sign is
  offered (`Issue.Opens`). Main statement: `plain_or_opens`.
-/

namespace ModCheck

open List
open Text (Piece splitPieces isBlank)

variable {i : Issue}

/-- Whether a check is about the structure of a file: its brackets, names and signs. -/
def Code.isOfStructure : Code → Bool
  | .unexpectedToken | .missingTypeName | .missingBracket | .missingEquals | .missingSemicolon =>
    true
  | _ => false

/-- Whether a check is about an object, its keys or its identifier. -/
def Code.isOfObject : Code → Bool
  | .unknownObjectType | .missingId | .cloneUnsupported | .parentOrder | .unknownProperty
  | .duplicateProperty | .replaceMarker | .duplicateId => true
  | _ => false

/-- Whether a check is about a value. -/
def Code.isOfValue (c : Code) : Bool :=
  !c.isOfStructure && !c.isOfObject

/-- An issue that offers a colon or a name among `names`, if anything, and not before the character
`lo`. -/
structure Issue.Plain (names : List String) (lo : Nat) (i : Issue) : Prop where
  code : i.code.isOfValue = true
  offer : ∀ text, i.replacement = some text → (text = ":" ∨ text ∈ names) ∧ lo ≤ i.range.start

/-- An issue of a value that offers an equals sign behind what stands there in a tag. -/
def Issue.Opens (value : List Char) (i : Issue) : Prop :=
  i.code = .zeroArgumentStyle ∧ ∃ pre name post, value = pre ++ (name ++ post) ∧ '<' ∈ pre ∧
    i.range = ⟨pre.length, pre.length + name.length⟩ ∧
    i.replacement = some (String.ofList (name ++ ['=']))

/-! ## Names that are offered -/

theorem mem_of_mem_suggest {target : String} {names : List String} {limit : Nat} {s : Suggestion}
    (h : s ∈ suggest target names limit) : s.name ∈ names := by
  have hmem := mem_mergeSort.1 (mem_of_mem_take h)
  obtain ⟨name, hname, e⟩ := mem_filterMap.1 hmem
  obtain ⟨-, e⟩ := Option.ite_none_right_eq_some.1 e
  rw [← Option.some.inj e]
  exact hname

theorem mem_of_bestName {target : String} {names : List String} {limit : Nat} {name : String}
    (h : bestName (suggest target names limit) = some name) : name ∈ names := by
  obtain ⟨s, hs, rfl⟩ := Option.map_eq_some_iff.1 h
  exact mem_of_mem_suggest (mem_of_head? hs)

section

variable {names : List String} {lo : Nat}

theorem plain_of_none (hcode : i.code.isOfValue = true) (h : i.replacement = none) :
    i.Plain names lo :=
  ⟨hcode, fun text e => by simp [h] at e⟩

theorem plain_ofUnknown {known : List String} (hknown : known ⊆ names) {code : Code}
    (hcode : code.isOfValue = true) (limit : Nat) (text name : String) {range : CharRange}
    (hlo : lo ≤ range.start) :
    (Issue.ofUnknown limit code text name known range).Plain names lo :=
  ⟨hcode, fun _ e => ⟨Or.inr (hknown (mem_of_bestName e)), hlo⟩⟩

theorem Issue.Plain.mono {known : List String} {n : Nat} (h : i.Plain known n)
    (hnames : known ⊆ names) (hlo : lo ≤ n) : i.Plain names lo :=
  ⟨h.code, fun text e => ⟨(h.offer text e).1.imp_right fun ht => hnames ht,
    Nat.le_trans hlo (h.offer text e).2⟩⟩

theorem Issue.Plain.shift (h : i.Plain names lo) (n : Nat) : (i.shift n).Plain names (lo + n) :=
  ⟨h.code, fun text e => ⟨(h.offer text e).1, Nat.add_le_add_right (h.offer text e).2 n⟩⟩

end

/-! ## Formulas -/

namespace Formula

/-- The names of operators and of those inside them. -/
def knownNames (operators : NameTable Operator) : List String :=
  operators.entries.flatMap fun e => e.name :: e.item.subTable.names

theorem names_subset_known (operators : NameTable Operator) :
    operators.names ⊆ knownNames operators := by
  intro name h
  obtain ⟨e, he, rfl⟩ := mem_map.1 h
  exact mem_flatMap_of_mem he mem_cons_self

theorem subNames_subset_known {operators : NameTable Operator} {key : String} {op : Operator}
    (h : operators.find? key = some op) : op.subTable.names ⊆ knownNames operators := by
  obtain ⟨e, he, rfl⟩ := Option.map_eq_some_iff.1 h
  intro name hname
  exact mem_flatMap_of_mem (mem_of_find?_eq_some he) (mem_cons_of_mem _ hname)

theorem CallIssue.plain {s : Checker} {call : Call} {body : Option Body}
    (hi : CallIssue s call body i)
    (hbody : ∀ b ∈ body, ∀ i ∈ b.issues, i.Plain (knownNames s.operators) 0) :
    i.Plain (knownNames s.operators) 0 := by
  induction hi with
  | unknown => exact plain_ofUnknown (names_subset_known s.operators) rfl _ _ _ (Nat.zero_le _)
  | delimiter => exact ⟨rfl, fun text e => ⟨Or.inl (Option.some.inj e).symm, Nat.zero_le _⟩⟩
  | unknownSubOperator h e =>
    obtain ⟨-, key, hkey⟩ := addressee_unknown h e
    have hsub := subNames_subset_known hkey
    exact ⟨rfl, fun _ e => ⟨Or.inr (hsub (mem_of_bestName e)), Nat.zero_le _⟩⟩
  | inner _ _ _ _ _ ih => exact ih (by simp)
  | body hb hi => exact hbody _ hb _ hi
  | _ => exact plain_of_none rfl rfl

theorem plain_check (s : Checker) (f : Formula) :
    ∀ i ∈ f.check s, i.Plain (knownNames s.operators) 0 := by
  induction f with
  | literal value span => simp [check]
  | «variable» name span => simp [check]
  | negation operand span ih => exact ih
  | binary op left right span ihl ihr => exact forall_mem_append.2 ⟨ihl, ihr⟩
  | chain call => exact fun i hi => (callIssue_of_mem hi).plain (by simp)
  | applied call body span ih => exact fun i hi => (callIssue_of_mem hi).plain (by simpa using ih)

end Formula

/-! ## Tags -/

namespace RichText

/-- The issue that offers an equals sign behind the name of a tag. -/
def Tag.Styled (tag : Tag) (i : Issue) : Prop :=
  i.code = .zeroArgumentStyle ∧ i.range = tag.nameRange ∧ i.replacement = some (tag.name ++ "=")

/-- A tag without arguments may get an equals sign; what else is offered is a name. -/
theorem TagIssue.plain_or_style {s : Checker} {names : List String} {lo : Nat}
    (operators : Formula.knownNames s.operators ⊆ names)
    (commands : s.schema.commands.names ⊆ names) (tags : s.schema.tags.names ⊆ names) {tag : Tag}
    (arguments : ∀ x ∈ tag.arguments, lo ≤ x.range.start) (hname : lo ≤ tag.nameRange.start)
    (hi : TagIssue s tag i) : i.Plain names lo ∨ tag.Styled i := by
  cases hi with
  | unknown => exact Or.inl (plain_ofUnknown tags rfl _ _ _ hname)
  | unknownCommand hx e =>
    subst e
    exact Or.inl (plain_ofUnknown commands rfl _ _ _
      (Nat.le_trans (arguments _ hx) (Nat.le_add_right _ _)))
  | style => exact Or.inr ⟨rfl, rfl, rfl⟩
  | @formula x f i hx parsed hi =>
    have plain := (Formula.plain_check _ f i hi).shift x.range.start
    exact Or.inl (plain.mono operators (Nat.le_add_left_of_le (arguments x hx)))
  | _ => exact Or.inl (plain_of_none rfl rfl)

/-! ## Where the name of a tag stands -/

/-- The first piece of a text is its start. -/
theorem splitPieces_head (separator : Char) (pos : Nat) (cs : List Char) :
    ∃ p ps rest, splitPieces separator pos cs = p :: ps ∧ p.range.start = pos ∧
      cs = p.text ++ rest := by
  induction cs generalizing pos with
  | nil => exact ⟨_, [], [], rfl, rfl, rfl⟩
  | cons c cs ih =>
    obtain ⟨p, ps, rest, e, -, hcs⟩ := ih (pos + 1)
    simp only [splitPieces, e]
    split
    · exact ⟨_, _, c :: cs, rfl, rfl, rfl⟩
    · exact ⟨_, _, rest, rfl, rfl, by rw [cons_append, ← hcs]⟩

/-- The blanks around a piece. -/
theorem trim_split (p : Piece) :
    ∃ before after, p.text = before ++ (p.trim.text ++ after) ∧
      (∀ c ∈ after, isBlank c = true) ∧ p.trim.range = ⟨p.range.start + before.length,
        p.range.start + before.length + p.trim.text.length⟩ := by
  have hend : (p.text.dropWhile isBlank) = Text.trim p.text ++
      ((p.text.dropWhile isBlank).reverse.takeWhile isBlank).reverse := by
    rw [Text.trim, Text.trimEnd, Text.trimStart, ← reverse_append,
      takeWhile_append_dropWhile, reverse_reverse]
  refine ⟨p.text.takeWhile isBlank,
    ((p.text.dropWhile isBlank).reverse.takeWhile isBlank).reverse, ?_, ?_, rfl⟩
  swap
  · intro c hc
    exact mem_takeWhile_imp (mem_reverse.1 hc)
  calc p.text = p.text.takeWhile isBlank ++ p.text.dropWhile isBlank :=
        takeWhile_append_dropWhile.symm
    _ = p.text.takeWhile isBlank ++ (p.trim.text ++
          ((p.text.dropWhile isBlank).reverse.takeWhile isBlank).reverse) :=
        congrArg (p.text.takeWhile isBlank ++ ·) hend

theorem readTag_name (pos : Nat) (inner : List Char) :
    ∃ before after, inner = before ++ ((readTag pos inner).name.toList ++ after) ∧
      (readTag pos inner).nameRange = ⟨pos + 1 + before.length,
        pos + 1 + before.length + (readTag pos inner).name.toList.length⟩ := by
  obtain ⟨p, ps, rest, e, start, hinner⟩ := splitPieces_head '=' (pos + 1) inner
  obtain ⟨before, after, htext, -, hrange⟩ := trim_split p
  refine ⟨before, after ++ rest, ?_, ?_⟩
  · simp only [readTag, e, headD_cons, String.toList_ofList]
    rw [← append_assoc, ← append_assoc, append_assoc before, ← htext, ← hinner]
  · simp only [readTag, e, headD_cons, String.toList_ofList]
    rw [hrange, start]

/-- What stands before the first of some character and what behind it. -/
theorem split_at_first {c : Char} {cs : List Char} (h : cs.contains c = true) :
    cs = cs.takeWhile (· != c) ++ c :: cs.drop ((cs.takeWhile (· != c)).length + 1) := by
  have e := (takeWhile_append_dropWhile (p := (· != c)) (l := cs)).symm
  have hne : cs.dropWhile (· != c) ≠ [] := by
    intro hnil
    have := dropWhile_eq_nil_iff.1 hnil c (contains_iff_mem.1 h)
    simp at this
  have hhead := head_dropWhile_not (· != c) hne
  generalize cs.takeWhile (· != c) = before at e ⊢
  cases hd : cs.dropWhile (· != c) with
  | nil => exact absurd hd hne
  | cons d ds =>
    have hc : d = c := by simpa [hd] using hhead
    rw [hd, hc] at e
    rw [e, ← drop_drop, drop_left]
    rfl

/-- A tag of a text stands between its brackets. -/
theorem mem_segmentsFrom {pos : Nat} {cs : List Char} {tag : Tag}
    (h : .tag tag ∈ segmentsFrom pos cs) :
    ∃ before inner after, cs = before ++ '<' :: (inner ++ '>' :: after) ∧
      tag = readTag (pos + before.length) inner := by
  have texts (pos : Nat) (cs : List Char) : .tag tag ∉ textSegment pos cs := by
    unfold textSegment
    split <;> simp
  fun_induction segmentsFrom pos cs with
  | case1 pos cs _ => exact absurd h (texts _ _)
  | case2 pos cs c rest hrest hc text inner opening ih =>
    have hcs : cs = text ++ c :: rest := by
      rw [← hrest]
      exact takeWhile_append_dropWhile.symm
    have hopen : c = '<' := by
      have hne : cs.dropWhile (· != '<') ≠ [] := by simp [hrest]
      have := head_dropWhile_not (· != '<') hne
      simpa [hrest] using this
    have hinner : rest = inner ++ '>' :: rest.drop (inner.length + 1) := split_at_first hc
    rw [hcs, hopen]
    rcases mem_append.1 h with h | h
    · exact absurd h (texts _ _)
    · rcases mem_cons.1 h with h | h
      · exact ⟨text, inner, _, congrArg (text ++ '<' :: ·) hinner, Segment.tag.inj h⟩
      · obtain ⟨before, inner', after, hbefore, rfl⟩ := ih h
        rw [hbefore] at hinner
        refine ⟨text ++ '<' :: (inner ++ '>' :: before), inner', after, ?_, ?_⟩
        · rw [hinner]
          simp
        · congr 1
          simp only [length_append, length_cons]
          omega
  | case3 pos cs c rest _ _ => exact absurd h (texts _ _)

theorem readTag_arguments (pos : Nat) (inner : List Char) :
    ∀ x ∈ (readTag pos inner).arguments, pos + 1 ≤ x.range.start := by
  obtain ⟨ps, e, pieces, -⟩ := readTag_pieces pos inner
  rw [e]
  intro x hx
  obtain ⟨p, hp, rfl⟩ := mem_map.1 hx
  exact pieces.start_le hp

/-- The issues of a tag offer names inside it, or an equals sign behind its name. -/
theorem TagIssue.plain_or_opens {s : Checker} {names : List String}
    (operators : Formula.knownNames s.operators ⊆ names)
    (commands : s.schema.commands.names ⊆ names) (tags : s.schema.tags.names ⊆ names)
    {value : String} {tag : Tag} (ht : .tag tag ∈ segments value) (hi : TagIssue s tag i) :
    (∃ lo, i.Plain names lo ∧ '<' ∈ value.toList.take lo) ∨ i.Opens value.toList := by
  obtain ⟨before, inner, after, hvalue, rfl⟩ := mem_segmentsFrom ht
  obtain ⟨pre, post, hinner, hname⟩ := readTag_name (0 + before.length) inner
  have harguments := readTag_arguments (0 + before.length) inner
  have hstart : 0 + before.length + 1 ≤ (readTag (0 + before.length) inner).nameRange.start := by
    rw [hname]
    exact Nat.le_add_right _ _
  rcases hi.plain_or_style operators commands tags harguments hstart with
    h | ⟨hcode, hrange, htext⟩
  · refine Or.inl ⟨_, h, ?_⟩
    have hsplit : value.toList = (before ++ ['<']) ++ (inner ++ '>' :: after) := by
      rw [hvalue]
      simp
    have hlength : 0 + before.length + 1 = (before ++ ['<']).length := by simp
    rw [hsplit, hlength, take_left]
    simp
  · refine Or.inr ⟨hcode, before ++ '<' :: pre, (readTag (0 + before.length) inner).name.toList,
      post ++ '>' :: after, ?_, by simp, ?_, ?_⟩
    · rw [hvalue]
      conv_lhs => rw [hinner]
      simp
    · rw [hrange, hname, CharRange.mk.injEq, length_append, length_cons]
      omega
    · rw [htext, String.ofList_append, String.ofList_toList]

end RichText

/-! ## Values -/

/-- The names that can be offered inside a value. -/
def Schema.valueNames (schema : Schema) : List String :=
  Formula.knownNames schema.formulas.operators ++ schema.richText.tags.names ++
    schema.richText.commands.names ++ schema.objects.enums.flatMap (·.2)

theorem members_subset {schema : ObjectSchema} (name : String) :
    (schema.members? name).getD [] ⊆ schema.enums.flatMap (·.2) := by
  intro text htext
  cases h : schema.members? name with
  | none => simp [h] at htext
  | some members =>
    rw [h, Option.getD_some] at htext
    obtain ⟨l, r, e, -⟩ := lookup_eq_some_iff.1 h
    rw [e]
    simp [htext]

theorem partsCode_isOfValue (type : FieldType) : (partsCode type).isOfValue = true := by
  unfold partsCode
  split <;> rfl

/-- What the issues of a value offer. -/
theorem plain_or_opens {schema : Schema} {options : Options} {key value : String} {field : Field}
    (hi : i ∈ valueIssues schema options key value field) :
    i.Plain schema.valueNames 0 ∨ i.Opens value.toList := by
  have enums : schema.objects.enums.flatMap (·.2) ⊆ schema.valueNames :=
    subset_append_right _ _
  have operators : Formula.knownNames schema.formulas.operators ⊆ schema.valueNames := by
    intro name h
    simp [Schema.valueNames, h]
  cases valueIssue_of_mem hi with
  | formula parsed hi =>
    exact Or.inl ((Formula.plain_check _ _ i hi).mono operators (Nat.le_refl 0))
  | noFormula => exact Or.inl (plain_of_none rfl rfl)
  | tag _ ht hi =>
    have commands : schema.richText.commands.names ⊆ schema.valueNames := by
      intro name h
      simp [Schema.valueNames, h]
    have tags : schema.richText.tags.names ⊆ schema.valueNames := by
      intro name h
      simp [Schema.valueNames, h]
    refine (hi.plain_or_opens operators commands tags ht).imp_left ?_
    rintro ⟨lo, plain, -⟩
    exact plain.mono (List.Subset.refl _) (Nat.zero_le lo)
  | word _ he => exact Or.inl (plain_of_none (by cases he <;> rfl) rfl)
  | @member name =>
    exact Or.inl (plain_ofUnknown (List.Subset.trans (members_subset name) enums) rfl _ _ _
      (Nat.zero_le _))
  | count => exact Or.inl (plain_of_none (partsCode_isOfValue _) rfl)
  | groups => exact Or.inl (plain_of_none (partsCode_isOfValue _) rfl)
  | component => exact Or.inl (plain_of_none (partsCode_isOfValue _) rfl)

/-- An issue of a value comes from a check of values. -/
theorem isOfValue_of_mem_valueIssues {schema : Schema} {options : Options} {key value : String}
    {field : Field} (hi : i ∈ valueIssues schema options key value field) :
    i.code.isOfValue = true := by
  rcases plain_or_opens hi with h | ⟨hcode, -⟩
  · exact h.code
  · rw [hcode]
    rfl

end ModCheck
