import ModCheck.Document
import ModCheck.Proofs.ListElements
import ModCheck.Proofs.ValueIssues

/-
  Rich text in parts. A text is a list of parts, each a tag with the text before it, and a rest
  without tags (`exists_parts`). Its tags are those of the parts (`tags_written`), and its issues
  are those of its tags, one after the other (`check_eq_flatMap`). What is reported about a tag
  depends on what stands between its brackets; where the tag stands only moves the issues
  (`tagIssues_readTag`).
-/

namespace ModCheck.RichText

open List
open Text (Piece splitPieces isBlank)

/-! ## Parts -/

/-- A tag and the text before it. -/
structure Part where
  text : List Char
  inner : List Char
  plain : '<' ∉ text
  closed : '>' ∉ inner

def Part.written (p : Part) : List Char :=
  p.text ++ '<' :: (p.inner ++ ['>'])

theorem length_written (p : Part) : p.written.length = p.text.length + p.inner.length + 2 := by
  simp only [Part.written, length_append, length_cons, length_nil]
  omega

/-- A text that consists of parts and a rest. -/
def written (parts : List Part) (rest : List Char) : List Char :=
  parts.flatMap Part.written ++ rest

@[simp] theorem written_nil (rest : List Char) : written [] rest = rest := rfl

@[simp] theorem written_cons (p : Part) (parts : List Part) (rest : List Char) :
    written (p :: parts) rest = p.written ++ written parts rest := by
  simp [written]

/-- No bracket that is opened is closed again. -/
def Tagless (cs : List Char) : Prop :=
  '>' ∉ cs.dropWhile (· != '<')

theorem takeWhile_ne_append {c : Char} {cs : List Char} (h : c ∉ cs) (rest : List Char) :
    (cs ++ c :: rest).takeWhile (· != c) = cs := by
  rw [takeWhile_append_of_pos, takeWhile_cons_of_neg (by simp), append_nil]
  intro d hd
  simpa using fun e : d = c => h (e ▸ hd)

theorem dropWhile_ne_append {c : Char} {cs : List Char} (h : c ∉ cs) (rest : List Char) :
    (cs ++ c :: rest).dropWhile (· != c) = c :: rest := by
  rw [dropWhile_append_of_pos, dropWhile_cons_of_neg (by simp)]
  intro d hd
  simpa using fun e : d = c => h (e ▸ hd)

theorem not_mem_takeWhile_ne (c : Char) (cs : List Char) : c ∉ cs.takeWhile (· != c) := by
  intro h
  simpa using mem_takeWhile_imp h

/-- Every text consists of parts and a rest without tags. -/
theorem exists_parts (cs : List Char) : ∃ parts rest, Tagless rest ∧ written parts rest = cs := by
  induction hn : cs.length using Nat.strongRecOn generalizing cs with
  | _ n ih =>
    by_cases tagless : Tagless cs
    · exact ⟨[], cs, tagless, rfl⟩
    · have closes : '>' ∈ cs.dropWhile (· != '<') := Decidable.not_not.1 tagless
      have opens : '<' ∈ cs := by
        by_contra h
        have none : cs.dropWhile (· != '<') = [] :=
          dropWhile_eq_nil_iff.2 fun c hc => by simpa using fun e : c = '<' => h (e ▸ hc)
        simp [none] at closes
      have first := split_at_first (contains_iff_mem.2 opens)
      generalize cs.drop ((cs.takeWhile (· != '<')).length + 1) = behind at first
      have plain := not_mem_takeWhile_ne '<' cs
      generalize cs.takeWhile (· != '<') = text at first plain
      rw [first, dropWhile_ne_append plain, mem_cons] at closes
      have second := split_at_first (contains_iff_mem.2 (closes.resolve_left (by decide)))
      generalize behind.drop ((behind.takeWhile (· != '>')).length + 1) = more at second
      have closed := not_mem_takeWhile_ne '>' behind
      generalize behind.takeWhile (· != '>') = inner at second closed
      have shorter : more.length < n := by
        rw [← hn, first, second]
        simp only [length_append, length_cons]
        omega
      obtain ⟨parts, rest, tagless, e⟩ := ih _ shorter more rfl
      refine ⟨⟨text, inner, plain, closed⟩ :: parts, rest, tagless, ?_⟩
      rw [written_cons, e, first, second]
      simp [Part.written]

theorem segmentsFrom_tagless {cs : List Char} (h : Tagless cs) (pos : Nat) :
    segmentsFrom pos cs = textSegment pos cs := by
  unfold Tagless at h
  rw [segmentsFrom]
  split
  · rfl
  · next c rest e =>
    rw [e] at h
    rw [if_neg]
    simpa using fun hrest => h (mem_cons_of_mem c hrest)

theorem segmentsFrom_part (p : Part) (pos : Nat) (cs : List Char) :
    segmentsFrom pos (p.written ++ cs) =
      textSegment pos p.text ++ .tag (readTag (pos + p.text.length) p.inner) ::
        segmentsFrom (pos + p.written.length) cs := by
  obtain ⟨text, inner, plain, closed⟩ := p
  have whole : Part.written ⟨text, inner, plain, closed⟩ ++ cs =
      text ++ '<' :: (inner ++ '>' :: cs) := by
    simp [Part.written]
  have front := takeWhile_ne_append plain (inner ++ '>' :: cs)
  have back := dropWhile_ne_append plain (inner ++ '>' :: cs)
  have behind : (inner ++ '>' :: cs).drop (inner.length + 1) = cs := by
    rw [← drop_drop, drop_left]
    rfl
  rw [segmentsFrom, whole, length_written]
  split
  · next e => simp [back] at e
  · next c rest e =>
    obtain ⟨-, rfl⟩ := cons_eq_cons.1 (back.symm.trans e)
    rw [if_pos (by simp), front, takeWhile_ne_append closed]
    dsimp only
    rw [behind]
    simp only [Nat.add_assoc]

def Segment.tag? : Segment → Option Tag
  | .text _ _ => none
  | .tag t => some t

/-- The tags of a text. -/
def tags (value : String) : List Tag :=
  (segments value).filterMap Segment.tag?

theorem mem_tags {value : String} {t : Tag} : t ∈ tags value ↔ .tag t ∈ segments value := by
  rw [tags, mem_filterMap]
  constructor
  · rintro ⟨segment, h, e⟩
    cases segment with
    | text source range => simp [Segment.tag?] at e
    | tag t' =>
      obtain rfl := Option.some.inj e
      exact h
  · exact fun h => ⟨.tag t, h, rfl⟩

/-- The issues of a text are those of its tags. -/
theorem check_eq_flatMap (s : Checker) (value : String) :
    check s value = (tags value).flatMap (tagIssues s) := by
  unfold check tags
  induction segments value with
  | nil => rfl
  | cons segment segments ih =>
    rw [flatMap_cons, ih]
    cases segment <;> rfl

/-- The tags of parts, of which the first starts at the character `pos`. -/
def tagsFrom : Nat → List Part → List Tag
  | _, [] => []
  | pos, p :: parts =>
    readTag (pos + p.text.length) p.inner :: tagsFrom (pos + p.written.length) parts

theorem filterMap_textSegment (pos : Nat) (cs : List Char) :
    (textSegment pos cs).filterMap Segment.tag? = [] := by
  unfold textSegment
  split <;> rfl

theorem tags_written (parts : List Part) {rest : List Char} (h : Tagless rest) :
    tags (String.ofList (written parts rest)) = tagsFrom 0 parts := by
  rw [tags, segments, String.toList_ofList]
  generalize 0 = pos
  induction parts generalizing pos with
  | nil => rw [written_nil, segmentsFrom_tagless h, filterMap_textSegment, tagsFrom]
  | cons p parts ih =>
    rw [written_cons, segmentsFrom_part, filterMap_append, filterMap_textSegment, tagsFrom, ← ih]
    rfl

theorem tags_eq {value : String} {parts : List Part} {rest : List Char} (tagless : Tagless rest)
    (e : written parts rest = value.toList) : tags value = tagsFrom 0 parts := by
  rw [← tags_written parts tagless, e, String.ofList_toList]

/-- A text has tags exactly if its first part has one. -/
theorem hasTag_iff {value : String} : hasTag value.toList = true ↔ tags value ≠ [] := by
  obtain ⟨parts, rest, tagless, e⟩ := exists_parts value.toList
  rw [tags_eq tagless e, ← e, hasTag]
  cases parts with
  | nil => simpa [tagsFrom, Tagless] using tagless
  | cons p parts => simp [tagsFrom, Part.written, dropWhile_ne_append p.plain]

/-- A text passes the test for tags exactly if there is a tag among its segments, so that a
semicolon is not missed behind a value exactly if the value is empty or has a tag. -/
theorem tag_test_exact (value : String) :
    (hasTag value.toList = true ↔ ∃ tag, .tag tag ∈ segments value) ∧
    ∀ (file : String) (key equals : Token) (tokens : List Token),
      (Statement.assignment key equals tokens .loose true).messages file = [] ↔
        joinTokens tokens = [] ∨ ∃ tag, .tag tag ∈ segments (.ofList (joinTokens tokens)) := by
  have test (value : String) : hasTag value.toList = true ↔ ∃ tag, .tag tag ∈ segments value := by
    simp only [hasTag_iff, ← mem_tags, ne_eq, List.eq_nil_iff_forall_not_mem, not_forall, not_not]
  refine ⟨test value, fun file key equals tokens => ?_⟩
  rw [← test, String.toList_ofList, Statement.messages]
  cases joinTokens tokens <;> simp

/-! ## Tags further on -/

def TagArgument.shift (argument : TagArgument) (n : Nat) : TagArgument :=
  ⟨argument.text, argument.range.shift n⟩

/-- A tag `n` characters further on. -/
def Tag.shift (tag : Tag) (n : Nat) : Tag :=
  ⟨tag.name, tag.nameRange.shift n, tag.arguments.map (·.shift n), tag.range.shift n, tag.source⟩

theorem splitPieces_shift (separator : Char) (pos n : Nat) (cs : List Char) :
    splitPieces separator (pos + n) cs = (splitPieces separator pos cs).map (·.shift n) := by
  induction cs generalizing pos with
  | nil => rfl
  | cons c cs ih =>
    have more := ih (pos + 1)
    rw [Nat.add_right_comm] at more
    simp only [splitPieces, more]
    split
    · rfl
    · cases splitPieces separator (pos + 1) cs <;> rfl

theorem readTag_shift (pos n : Nat) (inner : List Char) :
    readTag (pos + n) inner = (readTag pos inner).shift n := by
  obtain ⟨p, ps, rest, e, -, -⟩ := splitPieces_head '=' (pos + 1) inner
  have moved := splitPieces_shift '=' (pos + 1) n inner
  rw [e, Nat.add_right_comm] at moved
  simp only [readTag, e, moved, map_cons, headD_cons, tail_cons, trim_shift]
  simp only [Tag.shift, Tag.mk.injEq, map_map, CharRange.shift]
  refine ⟨rfl, rfl, rfl, ?_, trivial⟩
  rw [CharRange.mk.injEq]
  omega

section

variable (s : Checker) (n : Nat)

theorem formulaIssues_shift (argument : TagArgument) :
    formulaIssues s (argument.shift n) = (formulaIssues s argument).map (·.shift n) := by
  unfold formulaIssues TagArgument.shift
  dsimp only
  split
  · rw [map_map]
    congr 1
    funext i
    simp [Issue.shift, CharRange.shift, Nat.add_assoc]
  · simp only [map_cons, map_nil, Issue.shift, CharRange.shift, cons.injEq, and_true,
      Issue.mk.injEq, CharRange.mk.injEq, true_and]
    omega

theorem argumentIssues_shift (label : String) (spec : TagSpec) (tag : Tag)
    (arguments : List TagArgument) :
    argumentIssues s label spec (tag.shift n) (arguments.map (·.shift n)) =
      (argumentIssues s label spec tag arguments).map (·.shift n) := by
  have blank : (arguments.map (·.shift n)).getLast?.any (·.isEmpty) =
      arguments.getLast?.any (·.isEmpty) := by
    rw [getLast?_map]
    cases arguments.getLast? <;> rfl
  unfold argumentIssues
  dsimp only
  rw [blank, length_map]
  generalize (if arguments.getLast?.any (·.isEmpty) = true then arguments.length - 1 else
    arguments.length) = counted
  split
  · rfl
  · split
    · rfl
    · rw [map_append, map_flatMap, zip_map_left, flatMap_map]
      congr 1
      · split <;> rfl
      · congr 1
        funext q
        have blank : (q.1.shift n).isEmpty = q.1.isEmpty := rfl
        have text : (q.1.shift n).text = q.1.text := rfl
        simp only [Prod.map_fst, Prod.map_snd, id_eq, formulaIssues_shift, blank, text]
        split <;> rfl

theorem commandIssues_shift (tag : Tag) :
    commandIssues s (tag.shift n) = (commandIssues s tag).map (·.shift n) := by
  unfold commandIssues
  simp only [Tag.shift]
  cases tag.arguments with
  | nil => rfl
  | cons command rest =>
    have blank : (command.shift n).isEmpty = command.isEmpty := rfl
    have piece : (Piece.mk (command.shift n).text.toList (command.shift n).range).trim =
        (Piece.mk command.text.toList command.range).trim.shift n :=
      trim_shift (Piece.mk command.text.toList command.range) n
    simp only [map_cons, blank, piece]
    split
    · rfl
    · have text : ((Piece.mk command.text.toList command.range).trim.shift n).text =
          (Piece.mk command.text.toList command.range).trim.text := rfl
      rw [text]
      split
      · exact argumentIssues_shift s n _ _ tag rest
      · rfl

theorem tagIssues_shift (tag : Tag) :
    tagIssues s (tag.shift n) = (tagIssues s tag).map (·.shift n) := by
  have brackets : ((tag.arguments.map (·.shift n)).filter (·.text.toList.contains '<')).map
      (fun a => bracketIssue a.range) =
        ((tag.arguments.filter (·.text.toList.contains '<')).map
          fun a => bracketIssue a.range).map (·.shift n) := by
    rw [filter_map, map_map, map_map]
    rfl
  have name : (tag.shift n).name = tag.name := rfl
  have arguments : (tag.shift n).arguments = tag.arguments.map (·.shift n) := rfl
  unfold tagIssues
  rw [name, arguments]
  by_cases nested : tag.name.toList.contains '<' = true
  · rw [if_pos nested, if_pos nested]
    rfl
  · rw [if_neg nested, if_neg nested, map_append]
    congr 1
    split
    · rfl
    · split
      · exact commandIssues_shift s n tag
      · exact argumentIssues_shift s n _ _ tag tag.arguments

/-- The issues of a tag, wherever it stands. -/
theorem tagIssues_readTag (pos : Nat) (inner : List Char) :
    tagIssues s (readTag pos inner) = (tagIssues s (readTag 0 inner)).map (·.shift pos) := by
  rw [← tagIssues_shift, ← readTag_shift, Nat.zero_add]

end

end ModCheck.RichText
