import ModCheck.Proofs.Renaming
import ModCheck.Proofs.ValueIssues

/-
  Where the corrections of a value stand. Each of them stands in a tag, in a value without an equals
  sign, or before a comma or the end (`held_of_mem_valueIssues`): a formula has no equals sign, and
  the members of an enumeration stand between commas. So what is written there does not make the
  name of a property of the start of a value (`CharRange.Held.startsProperty_eq_false`).
-/

namespace ModCheck

open List
open Text (Piece splitPieces isBlank)

/-- A range of a value that stands in a tag, in a value without an equals sign, or before a comma
or the end, blanks aside. -/
def CharRange.Held (r : CharRange) (value : List Char) : Prop :=
  '<' ∈ value.take r.start ∨ '=' ∉ value ∨
    ∀ c, ((value.drop r.stop).dropWhile isBlank).head? = some c → c = ','

/-! ## The start of a value -/

/-- A property starts with a name, blanks and an equals sign. -/
theorem startsProperty_iff {cs : List Char} :
    startsProperty cs = true ↔ ∃ name gap rest, cs = name ++ (gap ++ '=' :: rest) ∧ IsName name ∧
      ∀ c ∈ gap, isLineBlank c = true := by
  constructor
  · intro h
    cases cs with
    | nil => simp [startsProperty] at h
    | cons c cs =>
      simp only [startsProperty, Bool.and_eq_true, beq_iff_eq] at h
      obtain ⟨rest, hrest⟩ := head?_eq_some_iff.1 h.2
      refine ⟨c :: cs.takeWhile Token.isWordChar,
        (cs.dropWhile Token.isWordChar).takeWhile isLineBlank, rest, ?_,
        ⟨h.1, fun d hd => mem_takeWhile_imp hd⟩, fun d hd => mem_takeWhile_imp hd⟩
      rw [← hrest, takeWhile_append_dropWhile, cons_append, takeWhile_append_dropWhile]
  · rintro ⟨name, gap, rest, rfl, hname, hgap⟩
    have hword : (gap ++ '=' :: rest).head?.any Token.isWordChar = false := by
      cases gap with
      | nil => exact isWordChar_eq_false (by decide)
      | cons g gap =>
        have hg := hgap g mem_cons_self
        simp only [isLineBlank, Bool.and_eq_true] at hg
        exact not_isWordChar_of_isBlank hg.1.1
    rw [startsProperty_name hname hword, assigns, dropWhile_append_of_pos hgap]
    rfl

/-- What a property starts with has no characters but those of names, and blanks. -/
theorem not_mem_of_isName {name gap : List Char} (hname : IsName name)
    (hgap : ∀ c ∈ gap, isLineBlank c = true) {c : Char} (hpart : isNamePart c = false)
    (hblank : isBlank c = false) : c ∉ name ++ gap := by
  intro hc
  rcases mem_append.1 hc with hc | hc
  · rw [hname.isNamePart hc] at hpart
    exact absurd hpart (by decide)
  · have := hgap c hc
    simp [isLineBlank, hblank] at this

/-- A sign that does not stand in the first part of a text stands in the second. -/
theorem exists_sign_behind {first second front rest : List Char} {c : Char}
    (e : first ++ second = front ++ c :: rest) (apart : ∀ ys, first ≠ front ++ c :: ys) :
    ∃ x, front = first ++ x ∧ second = x ++ c :: rest := by
  rcases append_eq_append_iff.1 e with ⟨x, hx, e⟩ | ⟨y, hy, e⟩
  · exact ⟨x, hx, e⟩
  · cases y with
    | nil => exact ⟨[], by simpa using hy.symm, by simpa using e.symm⟩
    | cons d ys =>
      obtain ⟨rfl, -⟩ := cons_eq_cons.1 e
      exact absurd hy (apart ys)

/-- What is written at a held range does not make a property of a value that starts none. -/
theorem CharRange.Held.startsProperty_eq_false {r : CharRange} {value text : List Char}
    (held : r.Held value) (htext : '=' ∈ text → '<' ∈ value.take r.start)
    (h : startsProperty value = false) : startsProperty (r.replace text value) = false := by
  by_contra hstart
  rw [Bool.not_eq_false] at hstart
  obtain ⟨name, gap, rest, e, hname, hgap⟩ := startsProperty_iff.1 hstart
  rw [← append_assoc name] at e
  -- the equals sign does not stand before the range
  obtain ⟨x, hx, e⟩ := exists_sign_behind e fun ys hy => by
    have hvalue : startsProperty value = true := by
      refine startsProperty_iff.2 ⟨name, gap, ys ++ value.drop r.start, ?_, hname, hgap⟩
      conv_lhs => rw [← take_append_drop r.start value, hy]
      simp
    rw [h] at hvalue
    exact absurd hvalue (by decide)
  have hopen : '<' ∉ value.take r.start := fun hmem =>
    not_mem_of_isName (c := '<') hname hgap (by decide) (by decide)
      (hx ▸ mem_append_left _ hmem)
  have hequals : '=' ∉ text := fun hmem => hopen (htext hmem)
  obtain ⟨z, hz, e⟩ := exists_sign_behind e fun ys hy => hequals (hy ▸ by simp)
  rcases held with held | held | held
  · exact hopen held
  · have hmem : '=' ∈ value.drop r.stop := by simp [e]
    exact held (mem_of_mem_drop hmem)
  · -- the first character behind the range that is no blank is a part of the name or the sign
    rw [e, dropWhile_append] at held
    by_cases hblank : z.dropWhile isBlank = []
    · rw [hblank] at held
      exact absurd (held '=' rfl) (by decide)
    · have hhead := head?_eq_some_head hblank
      rw [if_neg (by simpa using hblank), head?_append_of_ne_nil _ hblank, hhead] at held
      have hcomma : ',' ∈ z := by
        rw [← held _ rfl]
        exact (dropWhile_sublist isBlank).mem (head_mem hblank)
      refine not_mem_of_isName (c := ',') hname hgap (by decide) (by decide) ?_
      rw [hx, hz]
      simp [hcomma]

/-! ## Formulas -/

namespace Formula

theorem Scans.equals_not_mem {pos : Nat} {cs : List Char} {ts : List Token} (h : Scans pos cs ts) :
    '=' ∉ cs := by
  induction h with
  | done => simp
  | @blank pos c cs ts hblank more ih =>
    have hne : '=' ≠ c := by
      rintro rfl
      exact absurd hblank (by decide)
    exact not_mem_cons_of_ne_of_not_mem hne ih
  | token longest more ih =>
    refine fun hmem => (mem_append.1 hmem).elim (fun here => ?_) ih
    rcases longest.token.isTokenChar '=' here with word | sign
    · exact absurd word (by decide)
    · exact absurd sign (by decide)

/-- A text with an equals sign is no formula. -/
theorem equals_not_mem_of_parse {text : String} {f : Formula} (h : parse text = .ok f) :
    '=' ∉ text.toList := by
  unfold parse at h
  split at h
  · simp at h
  · next ts hts => exact (scans_iff.1 hts).equals_not_mem

end Formula

/-! ## Pieces -/

/-- A piece of a text stands before a separator or at the end. -/
theorem mem_splitPieces {separator : Char} {pos : Nat} {cs : List Char} {p : Piece}
    (h : p ∈ splitPieces separator pos cs) :
    ∃ before after, cs = before ++ (p.text ++ after) ∧
      p.range.start = pos + before.length ∧ ∀ c, after.head? = some c → c = separator := by
  induction cs generalizing pos p with
  | nil =>
    rw [mem_singleton.1 h]
    exact ⟨[], [], rfl, rfl, by simp⟩
  | cons c cs ih =>
    obtain ⟨q, ps, e, hstart, -⟩ := splitPieces_spec separator (pos + 1) cs
    have later {p : Piece} (hp : p ∈ splitPieces separator (pos + 1) cs) :
        ∃ before after, c :: cs = before ++ (p.text ++ after) ∧
          p.range.start = pos + before.length ∧ ∀ d, after.head? = some d → d = separator := by
      obtain ⟨before, after, hcs, hp, hafter⟩ := ih hp
      refine ⟨c :: before, after, by rw [cons_append, ← hcs], ?_, hafter⟩
      rw [length_cons]
      omega
    have first := ih (e ▸ mem_cons_self : q ∈ splitPieces separator (pos + 1) cs)
    rw [e] at later
    simp only [splitPieces, e] at h
    split at h
    · next hc =>
      rcases mem_cons.1 h with rfl | h
      · refine ⟨[], c :: cs, rfl, rfl, fun d hd => ?_⟩
        rw [← Option.some.inj hd]
        exact beq_iff_eq.1 hc
      · exact later h
    · rcases mem_cons.1 h with rfl | h
      · obtain ⟨before, after, hcs, hq, hafter⟩ := first
        have hnil : before = [] := length_eq_zero_iff.1 (by omega)
        rw [hnil] at hcs
        exact ⟨[], after, congrArg (c :: ·) hcs, rfl, hafter⟩
      · exact later (mem_cons_of_mem _ h)

/-- The range of a piece, without the blanks around it, is held by the comma or the end. -/
theorem held_trim {value before after : List Char} {p : Piece}
    (hvalue : value = before ++ (p.text ++ after)) (hstart : p.range.start = before.length)
    (hafter : ∀ c, after.head? = some c → c = ',') : p.trim.range.Held value := by
  obtain ⟨front, back, htext, hback, hrange⟩ := RichText.trim_split p
  refine Or.inr (Or.inr ?_)
  have hdrop : value.drop p.trim.range.stop = back ++ after := by
    have hsplit : value = (before ++ (front ++ p.trim.text)) ++ (back ++ after) := by
      rw [hvalue, htext]
      simp
    have hlength : p.trim.range.stop = (before ++ (front ++ p.trim.text)).length := by
      rw [hrange, hstart]
      simp [Nat.add_assoc]
    rw [hlength, hsplit, drop_left]
  rw [hdrop, dropWhile_append_of_pos hback]
  intro c hc
  cases after with
  | nil => simp at hc
  | cons d ds =>
    obtain rfl := hafter d rfl
    exact (Option.some.inj hc).symm

/-! ## Values -/

/-- What is offered in a tag stands behind its bracket. -/
theorem RichText.TagIssue.opened {s : Checker} {value : String} {tag : Tag}
    (ht : .tag tag ∈ segments value) {i : Issue} (hi : TagIssue s tag i) {text : String}
    (htext : i.replacement = some text) : '<' ∈ value.toList.take i.range.start := by
  have hoffer := @TagIssue.plain_or_opens i s
    (Formula.knownNames s.operators ++ s.schema.commands.names ++ s.schema.tags.names)
    (fun _ h => by simp [h]) (fun _ h => by simp [h]) (fun _ h => by simp [h]) value tag ht hi
  rcases hoffer with ⟨lo, plain, hopen⟩ | ⟨-, pre, name, post, hvalue, hopen, hrange, -⟩
  · exact (take_sublist_take_left (plain.offer text htext).2).mem hopen
  · rw [hrange, hvalue, take_left]
    exact hopen

theorem held_components {value : String} {piece : Piece} (h : piece ∈ components value) :
    piece.range.Held value.toList := by
  obtain ⟨p, hp, rfl⟩ := mem_map.1 h
  obtain ⟨before, after, hvalue, hstart, hafter⟩ := mem_splitPieces hp
  exact held_trim hvalue (by omega) hafter

theorem held_trimmedPiece (value : String) : (trimmedPiece value).range.Held value.toList := by
  have hvalue : value.toList = [] ++ (value.toList ++ []) := by simp
  exact held_trim (p := ⟨value.toList, ⟨0, value.length⟩⟩) hvalue rfl (by simp)

/-- The corrections of a value stand at held ranges. -/
theorem held_of_mem_valueIssues {schema : Schema} {options : Options} {key value : String}
    {field : Field} {i : Issue} (hi : i ∈ valueIssues schema options key value field)
    {text : String} (ht : i.replacement = some text) : i.range.Held value.toList := by
  cases valueIssue_of_mem hi with
  | formula parsed => exact Or.inr (Or.inl (Formula.equals_not_mem_of_parse parsed))
  | tag _ htag hi => exact Or.inl (hi.opened htag ht)
  | member _ hp =>
    rcases hp with rfl | hp
    · exact held_trimmedPiece value
    · exact held_components hp
  | _ => simp [pieceIssue] at ht

end ModCheck
