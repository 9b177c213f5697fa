import ModCheck.Proofs.ValueReplacements

/-
  Lists against their elements. A text with commas between its parts is cut into these parts again,
  each where it stands (`components_intercalate`), and a single value is checked the same way
  wherever it stands (`scalarIssue?_shift`). So a list of single values has the issues of its
  elements, one after the other. Elements that are formulas, rich texts or lists themselves are not
  looked into: such a list has no issues, whatever its elements have (`listIssues_eq_nil`).
-/

namespace ModCheck

open List
open Text (Piece splitPieces isBlank)

variable {cs : List Char} {values : List String}

/-! ## Texts between separators -/

/-- A piece `n` characters further on. -/
def Text.Piece.shift (p : Piece) (n : Nat) : Piece :=
  ⟨p.text, p.range.shift n⟩

theorem trim_shift (p : Piece) (n : Nat) : (p.shift n).trim = p.trim.shift n := by
  simp only [Piece.trim, Piece.shift, CharRange.shift, Nat.add_right_comm _ n]

theorem splitPieces_of_not_mem {separator : Char} (h : separator ∉ cs) (pos : Nat) :
    splitPieces separator pos cs = [⟨cs, ⟨pos, pos + cs.length⟩⟩] := by
  induction cs generalizing pos with
  | nil => rfl
  | cons c cs ih =>
    obtain ⟨hc, hcs⟩ := not_or.1 (mt mem_cons.2 h)
    rw [splitPieces, ih hcs, if_neg (by simpa using Ne.symm hc), length_cons,
      Nat.add_right_comm, Nat.add_assoc]

/-- The first piece goes up to the first separator. -/
theorem splitPieces_append {separator : Char} (h : separator ∉ cs) (pos : Nat) (rest : List Char) :
    splitPieces separator pos (cs ++ separator :: rest) =
      ⟨cs, ⟨pos, pos + cs.length⟩⟩ :: splitPieces separator (pos + cs.length + 1) rest := by
  induction cs generalizing pos with
  | nil => simp [splitPieces]
  | cons c cs ih =>
    obtain ⟨hc, hcs⟩ := not_or.1 (mt mem_cons.2 h)
    rw [cons_append, splitPieces, ih hcs, if_neg (by simpa using Ne.symm hc),
      length_cons, Nat.add_right_comm pos 1, Nat.add_assoc pos]

/-- Texts with one sign between each two of them, each with the number of its first character. -/
def placedFrom : Nat → List String → List (Nat × String)
  | _, [] => []
  | pos, v :: vs => (pos, v) :: placedFrom (pos + v.length + 1) vs

theorem piece_eq_shift (v : String) (pos : Nat) :
    (Piece.mk v.toList ⟨pos, pos + v.toList.length⟩).trim = (trimmedPiece v).shift pos := by
  have moved : Piece.mk v.toList ⟨pos, pos + v.toList.length⟩ =
      (Piece.mk v.toList ⟨0, v.length⟩).shift pos := by
    simp [Piece.shift, CharRange.shift, Nat.add_comm, String.length_toList]
  rw [moved, trim_shift]
  rfl

theorem splitPieces_intercalate (hne : values ≠ []) (commaFree : ∀ v ∈ values, ',' ∉ v.toList)
    (pos : Nat) :
    (splitPieces ',' pos (",".intercalate values).toList).map Piece.trim =
      (placedFrom pos values).map fun p => (trimmedPiece p.2).shift p.1 := by
  induction values generalizing pos with
  | nil => exact absurd rfl hne
  | cons v values ih =>
    obtain ⟨hv, hvalues⟩ := forall_mem_cons.1 commaFree
    cases values with
    | nil =>
      rw [String.intercalate_singleton, splitPieces_of_not_mem hv]
      simp [placedFrom, piece_eq_shift]
    | cons w values =>
      have text : (",".intercalate (v :: w :: values)).toList =
          v.toList ++ ',' :: (",".intercalate (w :: values)).toList := by
        simp
      rw [text, splitPieces_append hv, map_cons, ih (cons_ne_nil _ _) hvalues, piece_eq_shift]
      rfl

/-- The parts of texts with commas between them are these texts. -/
theorem components_intercalate (hne : values ≠ []) (commaFree : ∀ v ∈ values, ',' ∉ v.toList) :
    components (",".intercalate values) =
      (placedFrom 0 values).map fun p => (trimmedPiece p.2).shift p.1 :=
  splitPieces_intercalate hne commaFree 0

/-! ## Single values -/

/-- A single value has the same issue further on. -/
theorem scalarIssue?_shift (schema : ObjectSchema) (limit : Nat) (key : String) (piece : Piece)
    (type : FieldType) (n : Nat) :
    scalarIssue? schema limit key (piece.shift n) type =
      (scalarIssue? schema limit key piece type).map (·.shift n) := by
  have expected (valid : Bool) (code : Code) (text : String) :
      (if valid then none else some (pieceIssue code text (piece.shift n))) =
        (if valid then none else some (pieceIssue code text piece)).map (·.shift n) := by
    cases valid <;> rfl
  unfold scalarIssue?
  dsimp only
  split
  case _ => exact expected _ _ _
  case _ => exact expected _ _ _
  case _ => exact expected _ _ _
  case _ => exact expected _ _ _
  case _ name =>
    have text : (piece.shift n).text = piece.text := rfl
    rw [text]
    split <;> rfl
  case _ => rfl

theorem trim_eq_nil (h : cs.all isBlank = true) : Text.trim cs = [] := by
  have : cs.dropWhile isBlank = [] := dropWhile_eq_nil_iff.2 (all_eq_true.1 h)
  simp [Text.trim, Text.trimStart, Text.trimEnd, this]

theorem trimmedPiece_isEmpty (v : String) :
    (trimmedPiece v).text.isEmpty = v.toList.all isBlank := by
  cases h : v.toList.all isBlank with
  | true => simp [trimmedPiece, Piece.trim, trim_eq_nil h]
  | false => simpa [trimmedPiece, Piece.trim] using trim_ne_nil h

/-! ## Lists -/

/-- Whether a value of the type is one word, and not a text with a structure of its own. -/
def FieldType.isWord : FieldType → Bool
  | .formula => false
  | .richText => false
  | .list _ => false
  | _ => true

variable {schema : Schema} {options : Options} {key : String} {field : Field} {element : FieldType}

theorem listIssues_eq_flatMap (hne : values ≠ []) (commaFree : ∀ v ∈ values, ',' ∉ v.toList)
    (single : partNames? element = none) (objects : ObjectSchema) (limit : Nat) :
    listIssues objects limit key (",".intercalate values) element =
      (placedFrom 0 values).flatMap fun p =>
        if p.2.toList.all isBlank then []
        else (scalarIssue? objects limit key (trimmedPiece p.2) element).toList.map
          (·.shift p.1) := by
  unfold listIssues
  simp only [single, components_intercalate hne commaFree]
  generalize placedFrom 0 values = placed
  induction placed with
  | nil => rfl
  | cons p placed ih =>
    have here : ((trimmedPiece p.2).shift p.1).text.isEmpty = p.2.toList.all isBlank :=
      trimmedPiece_isEmpty p.2
    rw [map_cons, flatMap_cons, ← ih]
    cases blank : p.2.toList.all isBlank with
    | true =>
      rw [filter_cons_of_neg (by simp [here, blank])]
      rfl
    | false =>
      rw [filter_cons_of_pos (by simp [here, blank]), filterMap_cons, scalarIssue?_shift]
      cases scalarIssue? objects limit key (trimmedPiece p.2) element <;> rfl

/-- Formulas, rich texts and lists in a list are not looked into. -/
theorem listIssues_eq_nil (structured : element.isWord = false) (objects : ObjectSchema)
    (limit : Nat) (value : String) : listIssues objects limit key value element = [] := by
  unfold listIssues
  cases element with
  | formula => simp [partNames?, scalarIssue?]
  | richText => simp [partNames?, scalarIssue?]
  | list inner => simp [partNames?, scalarIssue?]
  | _ => exact absurd structured (by simp [FieldType.isWord])

theorem listIssues_blank {value : String} (blank : value.toList.all isBlank = true)
    (single : partNames? element = none) (objects : ObjectSchema) (limit : Nat) :
    listIssues objects limit key value element = [] := by
  have comma : ',' ∉ value.toList := fun h =>
    absurd (all_eq_true.1 blank ',' h) (by decide)
  have text (range : CharRange) : (Piece.mk value.toList range).trim.text = [] :=
    trim_eq_nil blank
  unfold listIssues components
  simp [single, splitPieces_of_not_mem comma, text]

theorem typedIssues_word (word : element.isWord = true) (single : partNames? element = none)
    (value : String) (allowX : Bool) :
    typedIssues schema options key value allowX element = (scalarIssue? schema.objects
      options.maxDistance key (trimmedPiece value) element).toList := by
  unfold typedIssues
  split
  · simp [FieldType.isWord] at word
  · simp [FieldType.isWord] at word
  · simp [FieldType.isWord] at word
  · rw [single]

theorem valueIssues_list (single : partNames? element = none) (visible : field.isVirtual = false)
    (value : String) :
    valueIssues schema options key value { field with type := .list element } =
      listIssues schema.objects options.maxDistance key value element := by
  unfold valueIssues
  simp only [visible]
  cases blank : value.toList.all isBlank with
  | true => exact (listIssues_blank blank single _ _).symm
  | false => rfl

/-- The issues of texts as values of a type, each where the text stands among them. -/
def elementIssues (schema : Schema) (options : Options) (key : String) (field : Field)
    (element : FieldType) (values : List String) : List Issue :=
  (placedFrom 0 values).flatMap fun p =>
    (valueIssues schema options key p.2 { field with type := element }).map (·.shift p.1)

theorem mem_of_mem_placedFrom {pos : Nat} {p : Nat × String} (h : p ∈ placedFrom pos values) :
    p.2 ∈ values := by
  induction values generalizing pos with
  | nil => simp [placedFrom] at h
  | cons v values ih =>
    rcases mem_cons.1 h with rfl | h
    · exact mem_cons_self
    · exact mem_cons_of_mem _ (ih h)

theorem exists_mem_placedFrom {v : String} (h : v ∈ values) (pos : Nat) :
    ∃ p ∈ placedFrom pos values, p.2 = v := by
  induction values generalizing pos with
  | nil => simp at h
  | cons w values ih =>
    rcases mem_cons.1 h with rfl | h
    · exact ⟨_, mem_cons_self, rfl⟩
    · obtain ⟨p, hp, rfl⟩ := ih h (pos + w.length + 1)
      exact ⟨p, mem_cons_of_mem _ hp, rfl⟩

theorem elementIssues_eq_nil_iff :
    elementIssues schema options key field element values = [] ↔
      ∀ v ∈ values, valueIssues schema options key v { field with type := element } = [] := by
  unfold elementIssues
  simp only [flatMap_eq_nil_iff, map_eq_nil_iff]
  constructor
  · intro h v hv
    obtain ⟨p, hp, rfl⟩ := exists_mem_placedFrom hv 0
    exact h p hp
  · intro h p hp
    exact h p.2 (mem_of_mem_placedFrom hp)

/-- A list of words has the issues of its elements. -/
theorem valueIssues_list_word (word : element.isWord = true) (single : partNames? element = none)
    (commaFree : ∀ v ∈ values, ',' ∉ v.toList) :
    valueIssues schema options key (",".intercalate values) { field with type := .list element } =
      elementIssues schema options key field element values := by
  by_cases hidden : field.isVirtual = true
  · have accepted (value : String) (type : FieldType) :
        valueIssues schema options key value { field with type := type } = [] := by
      simp [valueIssues, hidden]
    rw [accepted, elementIssues_eq_nil_iff.2 fun v _ => accepted v element]
  · have visible : field.isVirtual = false := by simpa using hidden
    rw [valueIssues_list single visible]
    by_cases hne : values = []
    · subst hne
      exact listIssues_blank rfl single _ _
    · rw [listIssues_eq_flatMap hne commaFree single]
      congr 1
      funext p
      unfold valueIssues
      rw [visible, Bool.or_false, typedIssues_word word single]
      split <;> rfl

/-- The issues of a list, for elements that are no groups of numbers: those of its elements where
each is a word, and none otherwise. So they are those of its elements just if these are words or
have none. -/
theorem list_issues_by_element (schema : Schema) (options : Options) (key : String) (field : Field)
    {element : FieldType} (single : element ∉ [.vector2, .tileCoord, .vector3, .rectangle])
    {values : List String} (commaFree : ∀ v ∈ values, ',' ∉ v.toList) :
    valueIssues schema options key (",".intercalate values) { field with type := .list element } =
        (if element.isWord then elementIssues schema options key field element values else []) ∧
      (valueIssues schema options key (",".intercalate values)
          { field with type := .list element } =
            elementIssues schema options key field element values ↔
        element.isWord = true ∨
          ∀ v ∈ values, valueIssues schema options key v { field with type := element } = []) := by
  have parts : partNames? element = none := by
    cases element with
    | vector2 => simp at single
    | tileCoord => simp at single
    | vector3 => simp at single
    | rectangle => simp at single
    | _ => rfl
  have issues : valueIssues schema options key (",".intercalate values)
      { field with type := .list element } =
        if element.isWord then elementIssues schema options key field element values else [] := by
    split
    · next word => exact valueIssues_list_word word parts commaFree
    · next word =>
      unfold valueIssues
      split
      · rfl
      · exact listIssues_eq_nil (by simpa using word) _ _ _
  refine ⟨issues, ?_⟩
  rw [issues, ← elementIssues_eq_nil_iff]
  cases element.isWord with
  | true => simp
  | false => simp [eq_comm (a := [])]

/-- Whole numbers with blanks around them, an empty element, and a name behind it. -/
theorem list_issues_by_element_blank :
    FieldType.integer ∉ [.vector2, .tileCoord, .vector3, .rectangle] ∧
      (∀ v ∈ [" 1", "", " x "], ',' ∉ v.toList) ∧
      valueIssues .empty {} "k" " 1,, x " ⟨"k", .list .integer, false, none, false⟩ =
        [{ severity := .error, code := .invalidInteger, text := "'k' expects an integer, got 'x'"
           range := ⟨5, 6⟩ }] := by
  have single : FieldType.integer ∉ [.vector2, .tileCoord, .vector3, .rectangle] := by decide
  have commaFree : ∀ v ∈ [" 1", "", " x "], ',' ∉ v.toList := by decide
  obtain ⟨issues, -⟩ := list_issues_by_element .empty {} "k" ⟨"k", .integer, false, none, false⟩
    single commaFree
  refine ⟨single, commaFree, ?_⟩
  have joined : ",".intercalate [" 1", "", " x "] = " 1,, x " := by decide +kernel
  rw [joined] at issues
  rw [issues]
  decide +kernel

/-- A formula that breaks off is reported as such, but not as the only element of a list. -/
theorem formula_in_list_unchecked :
    ',' ∉ "1+".toList ∧
      valueIssues .empty {} "k" "1+" ⟨"k", .formula, false, none, false⟩ =
        [{ severity := .error, code := .formulaSyntax
           text := "Formula syntax error: formula ends unexpectedly", range := ⟨2, 2⟩ }] ∧
      valueIssues .empty {} "k" "1+" ⟨"k", .list .formula, false, none, false⟩ = [] := by
  decide +kernel

end ModCheck
