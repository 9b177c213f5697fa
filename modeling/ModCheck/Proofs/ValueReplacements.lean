import Mathlib.Data.List.TakeWhile
import ModCheck.Proofs.FormulaReplacements

/-
  What a check of a value offers to write instead: names of enumeration members in its pieces, and
  what is offered in its formula or in the tags of its text. Pieces and tags follow each other, so
  the replacements of a value can be made together (`compatible_valueIssues`).
-/

namespace ModCheck

open List
open Text (Piece splitPieces isBlank)

variable {a b : Nat} {ps : List Piece}

/-! ## Pieces of a text -/

/-- Pieces that follow each other on the characters `a` up to `b`. -/
def PiecesIn : Nat → List Piece → Nat → Prop
  | a, [], b => a ≤ b
  | a, p :: ps, b =>
    a ≤ p.range.start ∧ p.range.stop = p.range.start + p.text.length ∧ PiecesIn p.range.stop ps b

theorem PiecesIn.le (h : PiecesIn a ps b) : a ≤ b := by
  induction ps generalizing a with
  | nil => exact h
  | cons p ps ih =>
    obtain ⟨h₁, h₂, rest⟩ := h
    have := ih rest
    omega

theorem PiecesIn.start_le (h : PiecesIn a ps b) {p : Piece} (hp : p ∈ ps) : a ≤ p.range.start := by
  induction ps generalizing a with
  | nil => simp at hp
  | cons q ps ih =>
    obtain ⟨h₁, h₂, rest⟩ := h
    rcases mem_cons.1 hp with rfl | hp
    · exact h₁
    · have := ih rest hp
      omega

theorem PiecesIn.mono {c : Nat} (h : PiecesIn a ps b) (hc : c ≤ a) : PiecesIn c ps b := by
  cases ps with
  | nil => exact Nat.le_trans hc h
  | cons p ps => exact ⟨Nat.le_trans hc h.1, h.2⟩

theorem PiecesIn.mono_right {c : Nat} (h : PiecesIn a ps b) (hc : b ≤ c) : PiecesIn a ps c := by
  induction ps generalizing a with
  | nil => exact Nat.le_trans h hc
  | cons p ps ih => exact ⟨h.1, h.2.1, ih h.2.2⟩

theorem splitPieces_spec (separator : Char) (pos : Nat) (cs : List Char) :
    ∃ p ps, splitPieces separator pos cs = p :: ps ∧ p.range.start = pos ∧
      PiecesIn pos (p :: ps) (pos + cs.length) := by
  induction cs generalizing pos with
  | nil => exact ⟨_, [], rfl, rfl, Nat.le_refl _, rfl, Nat.le_refl _⟩
  | cons c cs ih =>
    obtain ⟨p, ps, e, start, h₁, h₂, rest⟩ := ih (pos + 1)
    have hlen : pos + 1 + cs.length = pos + (c :: cs).length := by
      rw [length_cons]
      omega
    rw [hlen] at rest
    simp only [splitPieces, e]
    split
    · exact ⟨_, _, rfl, rfl, Nat.le_refl _, rfl, Nat.le_trans (Nat.le_succ pos) h₁, h₂, rest⟩
    · refine ⟨_, _, rfl, rfl, Nat.le_refl _, ?_, rest⟩
      dsimp only
      rw [length_cons]
      omega

theorem length_trim_le (cs : List Char) :
    (cs.takeWhile isBlank).length + (Text.trim cs).length ≤ cs.length := by
  have hend : (Text.trim cs).length ≤ (cs.dropWhile isBlank).length := by
    unfold Text.trim Text.trimEnd Text.trimStart
    rw [length_reverse]
    have := (dropWhile_suffix isBlank (l := (cs.dropWhile isBlank).reverse)).length_le
    rwa [length_reverse] at this
  have hsplit := congrArg List.length (takeWhile_append_dropWhile (p := isBlank) (l := cs))
  rw [length_append] at hsplit
  omega

/-- A piece without the blanks around it lies in the piece. -/
theorem trim_range {p : Piece} (h : p.range.stop = p.range.start + p.text.length) :
    p.range.start ≤ p.trim.range.start ∧
      p.trim.range.stop = p.trim.range.start + p.trim.text.length ∧
      p.trim.range.stop ≤ p.range.stop := by
  have := length_trim_le p.text
  refine ⟨Nat.le_add_right _ _, rfl, ?_⟩
  show p.range.start + (p.text.takeWhile isBlank).length + (Text.trim p.text).length ≤ p.range.stop
  omega

theorem PiecesIn.map_trim (h : PiecesIn a ps b) : PiecesIn a (ps.map Piece.trim) b := by
  induction ps generalizing a with
  | nil => exact h
  | cons p ps ih =>
    obtain ⟨h₁, h₂, rest⟩ := h
    obtain ⟨t₁, t₂, t₃⟩ := trim_range h₂
    exact ⟨Nat.le_trans h₁ t₁, t₂, ih (rest.mono t₃)⟩

theorem trim_ne_nil {cs : List Char} (h : cs.all isBlank = false) : Text.trim cs ≠ [] := by
  intro e
  have hrev : (cs.dropWhile isBlank).reverse.dropWhile isBlank = [] := by
    simpa [Text.trim, Text.trimEnd, Text.trimStart] using e
  have hall := dropWhile_eq_nil_iff.1 hrev
  cases hd : cs.dropWhile isBlank with
  | nil =>
    have := dropWhile_eq_nil_iff.1 hd
    rw [all_eq_true.2 this] at h
    exact absurd h (by decide)
  | cons c ds =>
    have hne : cs.dropWhile isBlank ≠ [] := by simp [hd]
    have hc := head_dropWhile_not isBlank hne
    rw [hall _ (mem_reverse.2 (head_mem hne))] at hc
    exact absurd hc (by decide)

theorem dropWhile_blanks {gap text : List Char} (hgap : ∀ c ∈ gap, isBlank c = true)
    (htext : ∀ c, text.head? = some c → isBlank c = false) :
    (gap ++ text).dropWhile isBlank = text := by
  rw [dropWhile_append_of_pos hgap]
  cases text with
  | nil => rfl
  | cons c text => exact dropWhile_cons_of_neg (by simp [htext c rfl])

/-! ## Single values and lists -/

/-- Only a name that is no member of an enumeration has something offered. -/
theorem compatible_scalar {piece : Piece} (h : piece.range.Inside a b) (schema : ObjectSchema)
    (limit : Nat) (key : String) (type : FieldType) :
    Compatible a b (replacements (scalarIssue? schema limit key piece type).toList) := by
  unfold scalarIssue?
  dsimp only
  split
  case _ => split <;> exact .nil a b
  case _ => split <;> exact .nil a b
  case _ => split <;> exact .nil a b
  case _ => split <;> exact .nil a b
  case _ name =>
    split
    · exact .nil a b
    · have := compatible_ofUnknown h limit .invalidEnum
        ("'" ++ String.ofList piece.text ++ "' is not a member of " ++ name)
        (String.ofList piece.text) ((schema.members? name).getD [])
      simpa using this
  case _ => exact .nil a b

theorem replacement_compositeIssues {key : String} {type : FieldType} {names : List String}
    {pieces : List Piece} {whole : CharRange} {i : Issue}
    (hi : i ∈ compositeIssues key type names pieces whole) : i.replacement = none := by
  unfold compositeIssues at hi
  split at hi
  · rw [mem_singleton.1 hi]
  · obtain ⟨q, -, hq⟩ := mem_filterMap.1 hi
    obtain ⟨-, hq⟩ := Option.ite_none_left_eq_some.1 hq
    rw [← Option.some.inj hq]
    rfl

theorem replacements_compositeIssues (key : String) (type : FieldType) (names : List String)
    (pieces : List Piece) (whole : CharRange) :
    replacements (compositeIssues key type names pieces whole) = [] :=
  replacements_eq_nil fun _ hi => replacement_compositeIssues hi

theorem compatible_elements (h : PiecesIn a ps b) (schema : ObjectSchema) (limit : Nat)
    (key : String) (element : FieldType) :
    Compatible a b (replacements ((ps.filter (!·.text.isEmpty)).filterMap fun piece =>
      scalarIssue? schema limit key piece element)) := by
  induction ps generalizing a with
  | nil => exact .nil a b
  | cons p ps ih =>
    obtain ⟨h₁, h₂, rest⟩ := h
    have hstop : p.range.start ≤ p.range.stop := by omega
    have tail := ih rest
    by_cases hp : p.text.isEmpty = true
    · rw [filter_cons_of_neg (by simp [hp])]
      exact tail.mono (by omega) (Nat.le_refl b)
    · have hlt : p.range.start < p.range.stop := by
        have : 0 < p.text.length := length_pos_iff.2 (by simpa using hp)
        omega
      have here := compatible_scalar (CharRange.inside_self hlt) schema limit key element
      have e (qs : List Piece) :
          (p :: qs).filterMap (fun piece => scalarIssue? schema limit key piece element) =
          (scalarIssue? schema limit key p element).toList ++
            qs.filterMap fun piece => scalarIssue? schema limit key piece element := by
        rw [filterMap_cons]
        cases scalarIssue? schema limit key p element <;> rfl
      rw [filter_cons_of_pos (by simp [hp]), e, replacements_append]
      exact (here.append tail hstop (Nat.le_refl _) rest.le).mono h₁ (Nat.le_refl b)

theorem piecesIn_components (value : String) : PiecesIn 0 (components value) value.length := by
  obtain ⟨p, ps, e, -, h⟩ := splitPieces_spec ',' 0 value.toList
  rw [Nat.zero_add, ← e] at h
  exact h.map_trim

theorem compatible_listIssues (schema : ObjectSchema) (limit : Nat) (key value : String)
    (element : FieldType) :
    Compatible 0 value.length (replacements (listIssues schema limit key value element)) := by
  unfold listIssues
  dsimp only
  split
  · split
    · exact .nil 0 value.length
    · rw [replacements_flatMap, flatMap_eq_nil_iff.2 fun group _ =>
        replacements_compositeIssues key element _ group (piecesRange group)]
      exact .nil 0 value.length
  · exact compatible_elements (piecesIn_components value) schema limit key element

/-! ## Tags -/

namespace RichText

variable {a b : Nat} {ps : List Piece}

theorem compatible_formulaIssues (s : Checker) (argument : TagArgument)
    (h : argument.range.stop = argument.range.start + argument.text.length) :
    Compatible argument.range.start argument.range.stop
      (replacements (formulaIssues s argument)) := by
  unfold formulaIssues
  split
  · next f hf =>
    have := (Formula.compatible_parse hf ⟨s.operators, s.limit, false⟩).shift argument.range.start
    rw [replacements_shift]
    rwa [Nat.zero_add, Nat.add_comm, ← h] at this
  · exact .nil _ _

/-- An argument of a tag is a piece of it. -/
def TagArgument.ofPiece (p : Piece) : TagArgument :=
  ⟨String.ofList p.text, p.range⟩

/-- The formulas among arguments that follow each other. -/
theorem compatible_arguments (s : Checker) (h : PiecesIn a ps b) (parameters : List TagParameter) :
    Compatible a b (replacements
      (((ps.map TagArgument.ofPiece).zip parameters).flatMap fun (argument, parameter) =>
        if parameter.isFormula && !argument.isEmpty && !argument.text.toList.contains '<' then
          formulaIssues s argument
        else [])) := by
  induction ps generalizing a parameters with
  | nil => exact .nil a b
  | cons p ps ih =>
    obtain ⟨h₁, h₂, rest⟩ := h
    have hstop : p.range.start ≤ p.range.stop := by omega
    cases parameters with
    | nil => exact .nil a b
    | cons parameter parameters =>
      have tail := ih rest parameters
      rw [map_cons, zip_cons_cons, flatMap_cons, replacements_append]
      refine Compatible.mono (Compatible.append ?_ tail hstop (Nat.le_refl _) rest.le) h₁
        (Nat.le_refl b)
      dsimp only
      split
      · apply compatible_formulaIssues s (TagArgument.ofPiece p)
        simpa [TagArgument.ofPiece] using h₂
      · exact .nil _ _

/-- A name is offered for a tag without arguments only; otherwise the arguments have their say. -/
theorem compatible_argumentIssues (s : Checker) (label : String) (spec : TagSpec) {tag : Tag}
    (hname : tag.nameRange.Inside a b) (h : PiecesIn a ps b) :
    Compatible a b
      (replacements (argumentIssues s label spec tag (ps.map TagArgument.ofPiece))) := by
  unfold argumentIssues
  dsimp only
  generalize (if (ps.map TagArgument.ofPiece).getLast?.any (·.isEmpty) = true then
    (ps.map TagArgument.ofPiece).length - 1 else (ps.map TagArgument.ofPiece).length) = counted
  split
  · exact .nil a b
  · split
    · exact .nil a b
    · rw [replacements_append]
      split
      · next hs =>
        have hps : ps = [] := by simpa using (Bool.and_eq_true_iff.1 hs).2
        rw [hps]
        exact .singleton hname
      · exact compatible_arguments s h spec.parameters

theorem compatible_commandIssues (s : Checker) {tag : Tag} (hname : tag.nameRange.Inside a b)
    (arguments : tag.arguments = ps.map TagArgument.ofPiece) (h : PiecesIn a ps b) :
    Compatible a b (replacements (commandIssues s tag)) := by
  unfold commandIssues
  rw [arguments]
  split
  · exact .nil a b
  · next command more e =>
    obtain ⟨p, qs, rfl, rfl, rfl⟩ := map_eq_cons_iff.1 e
    obtain ⟨h₁, h₂, rest⟩ := h
    split
    · exact .nil a b
    · next hb =>
      have hne : p.trim.text ≠ [] := by
        apply trim_ne_nil
        simpa [TagArgument.isEmpty, TagArgument.ofPiece] using hb
      have piece :
          Piece.mk (TagArgument.ofPiece p).text.toList (TagArgument.ofPiece p).range = p := by
        simp [TagArgument.ofPiece]
      obtain ⟨t₁, t₂, t₃⟩ := trim_range h₂
      have hpos := length_pos_iff.2 hne
      have hle := rest.le
      dsimp only
      rw [piece]
      split
      · exact compatible_argumentIssues s _ _ hname (rest.mono (by omega))
      · have inside : p.trim.range.Inside a b := by
          constructor <;> omega
        simpa using compatible_ofUnknown inside s.limit .unknownCommand _ _ _

/-- The name and the arguments of a tag are pieces of what stands between its brackets. -/
theorem readTag_pieces (pos : Nat) (inner : List Char) :
    ∃ ps, (readTag pos inner).arguments = ps.map TagArgument.ofPiece ∧
      PiecesIn (pos + 1) ps (pos + 1 + inner.length) ∧
      (readTag pos inner).nameRange.Inside pos (pos + inner.length + 2) := by
  obtain ⟨p, ps, e, start, h₁, h₂, rest⟩ := splitPieces_spec '=' (pos + 1) inner
  obtain ⟨t₁, t₂, t₃⟩ := trim_range h₂
  have hle := rest.le
  refine ⟨ps, ?_, rest.mono (by omega), ?_⟩
  · simp only [readTag, e]
    rfl
  · simp only [readTag, e, headD_cons]
    constructor <;> omega

theorem compatible_tagIssues (s : Checker) (pos : Nat) (inner : List Char) :
    Compatible pos (pos + inner.length + 2) (replacements (tagIssues s (readTag pos inner))) := by
  obtain ⟨ps, arguments, pieces, name⟩ := readTag_pieces pos inner
  have hle : pos + 1 + inner.length ≤ pos + inner.length + 2 := by omega
  have within : PiecesIn pos ps (pos + inner.length + 2) :=
    (pieces.mono (Nat.le_succ pos)).mono_right hle
  unfold tagIssues
  split
  · exact .nil _ _
  · have brackets : replacements (((readTag pos inner).arguments.filter
        (·.text.toList.contains '<')).map fun a => bracketIssue a.range) = [] := by
      apply replacements_eq_nil
      intro i hi
      obtain ⟨x, -, rfl⟩ := mem_map.1 hi
      rfl
    rw [replacements_append, brackets]
    split
    · simpa using compatible_ofUnknown name s.limit .unknownTag _ _ _
    · next spec _ =>
      split
      · exact compatible_commandIssues s name arguments within
      · rw [arguments]
        exact compatible_argumentIssues s spec.name spec name within

theorem length_takeWhile_lt {c : Char} {cs : List Char} (h : cs.contains c = true) :
    (cs.takeWhile (· != c)).length < cs.length := by
  have hsplit := congrArg List.length (takeWhile_append_dropWhile (p := (· != c)) (l := cs))
  have hne : cs.dropWhile (· != c) ≠ [] := by
    intro e
    have := dropWhile_eq_nil_iff.1 e c (contains_iff_mem.1 h)
    simp at this
  have := length_pos_iff.2 hne
  rw [length_append] at hsplit
  omega

/-- The tags of a text follow each other. -/
theorem compatible_segments (s : Checker) (pos : Nat) (cs : List Char) :
    Compatible pos (pos + cs.length) (replacements ((segmentsFrom pos cs).flatMap fun segment =>
      match segment with
      | .text _ _ => []
      | .tag tag => tagIssues s tag)) := by
  have texts (pos : Nat) (cs : List Char) :
      replacements ((textSegment pos cs).flatMap fun segment =>
      match segment with
      | .text _ _ => []
      | .tag tag => tagIssues s tag) = [] := by
    unfold textSegment
    split <;> rfl
  fun_induction segmentsFrom pos cs with
  | case1 pos cs h =>
    rw [texts]
    exact .nil _ _
  | case2 pos cs c rest h hc text inner opening ih =>
    have hcs : cs.length = text.length + (rest.length + 1) := by
      have := congrArg List.length (takeWhile_append_dropWhile (p := (· != '<')) (l := cs))
      rw [length_append, h] at this
      exact this.symm
    have hinner : inner.length + 1 ≤ rest.length := length_takeWhile_lt hc
    have hend : opening + inner.length + 2 + (rest.drop (inner.length + 1)).length =
        pos + cs.length := by
      rw [length_drop]
      omega
    have here := compatible_tagIssues s opening inner
    rw [flatMap_append, flatMap_cons, replacements_append, texts, nil_append, replacements_append]
    rw [hend] at ih
    exact (here.append ih (by omega) (Nat.le_refl _) (by omega)).mono (Nat.le_add_right _ _)
      (Nat.le_refl _)
  | case3 pos cs c rest h hc =>
    rw [texts]
    exact .nil _ _

theorem compatible_check (s : Checker) (value : String) :
    Compatible 0 value.length (replacements (check s value)) := by
  have := compatible_segments s 0 value.toList
  rwa [Nat.zero_add] at this

end RichText

/-! ## Values -/

theorem compatible_trimmed {value : String} (h : value.toList.all isBlank = false)
    (schema : ObjectSchema) (limit : Nat) (key : String) (type : FieldType) :
    Compatible 0 value.length
      (replacements (scalarIssue? schema limit key (trimmedPiece value) type).toList) := by
  have hp : (Piece.mk value.toList ⟨0, value.length⟩).range.stop =
      (Piece.mk value.toList ⟨0, value.length⟩).range.start + value.toList.length := by
    rw [String.length_toList]
    simp
  obtain ⟨t₁, t₂, t₃⟩ := trim_range hp
  dsimp only at t₁ t₃
  have hne : (trimmedPiece value).text ≠ [] := trim_ne_nil h
  have hpos := length_pos_iff.2 hne
  apply compatible_scalar
  unfold trimmedPiece at hpos ⊢
  constructor <;> omega

theorem compatible_formulaValueIssues (schema : FormulaSchema) (limit : Nat) (value : String)
    (allowX : Bool) :
    Compatible 0 value.length (replacements (formulaValueIssues schema limit value allowX)) := by
  unfold formulaValueIssues
  split
  · next f hf => exact Formula.compatible_parse hf _
  · exact .nil 0 value.length

/-- The replacements of a value can be made together. -/
theorem compatible_valueIssues (schema : Schema) (options : Options) (key value : String)
    (field : Field) :
    Compatible 0 value.length (replacements (valueIssues schema options key value field)) := by
  unfold valueIssues
  split
  · exact .nil 0 value.length
  · next h =>
    have hblank : value.toList.all isBlank = false := by
      simp only [Bool.or_eq_true, not_or, Bool.not_eq_true] at h
      exact h.1
    unfold typedIssues
    split
    · exact compatible_formulaValueIssues _ _ _ _
    · exact RichText.compatible_check _ value
    · exact compatible_listIssues _ _ _ _ _
    · split
      · rw [replacements_compositeIssues]
        exact .nil 0 value.length
      · exact compatible_trimmed hblank _ _ _ _

end ModCheck
