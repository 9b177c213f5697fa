import Mathlib.Data.List.Chain
import ModCheck.Proofs.StyleRepair

/-
  The division of a rich text into segments is exact. `Divided` says what a division is without
  saying how it is found: the segments cover the text without gaps, each is the characters at its
  range, a text between tags is not empty, not next to another and opens no bracket that is closed
  anywhere behind it, and a tag goes to the first closing bracket and consists of a name with blanks
  around it and arguments between equals signs (`Tag.Consists`). The segments of a text are such a
  division, and there is no other: the first character tells which kind of segment comes first, and
  the first bracket where it ends (`Divided.text_first`, `Divided.tag_first`). Main statement:
  `segments_divided`.
-/

namespace ModCheck.RichText

open List
open Text (Piece splitPieces isBlank)

variable {after rest text value : List Char} {pos : Nat}

/-! ## What a division is -/

/-- Arguments one behind the other, with one character before each of them; the first of these has
the number `pos`. -/
def PlacedFrom : Nat → List TagArgument → Prop
  | _, [] => True
  | pos, a :: more =>
    a.range = ⟨pos + 1, pos + 1 + a.text.toList.length⟩ ∧
      PlacedFrom (pos + 1 + a.text.toList.length) more

/-- What stands between the brackets of a tag whose name is `raw` with the blanks around it. -/
def Tag.inner (tag : Tag) (raw : List Char) : List Char :=
  ['='].intercalate (raw :: tag.arguments.map (·.text.toList))

/-- The parts of a tag of the text `value`, and where they stand in it. -/
structure Tag.Consists (tag : Tag) (value raw : List Char) : Prop where
  source : tag.source.toList = '<' :: (tag.inner raw ++ ['>'])
  closed : '>' ∉ tag.inner raw
  rawName : '=' ∉ raw
  arguments : ∀ a ∈ tag.arguments, '=' ∉ a.text.toList
  located : ∀ a ∈ tag.arguments, a.range.Holds value a.text.toList
  placed : PlacedFrom (tag.range.start + 1 + raw.length) tag.arguments
  trimmed : ∃ before behind, NameAt raw before tag.name.toList behind [] ∧
    tag.nameRange.start = tag.range.start + 1 + before.length
  name : tag.nameRange.Holds value tag.name.toList

/-- A text is not empty, and a bracket it opens is not closed behind it; a tag has its parts. -/
def Segment.Exact (value : List Char) : Segment → Prop
  | .text source range => source.toList ≠ [] ∧ ∀ before after,
      source.toList = before ++ '<' :: after → '>' ∉ value.drop (range.start + before.length)
  | .tag t => ∃ raw, t.Consists value raw

def Segment.isText : Segment → Bool
  | .text _ _ => true
  | .tag _ => false

/-- Segments one behind the other, from the character `pos` up to `stop`. -/
def Contiguous : Nat → List Segment → Nat → Prop
  | pos, [], stop => pos = stop
  | pos, s :: more, stop => s.range.start = pos ∧ Contiguous s.range.stop more stop

/-- A division of the text `value` from the character `pos` on. -/
structure Divided (value : List Char) (pos : Nat) (segments : List Segment) : Prop where
  contiguous : Contiguous pos segments value.length
  slices : ∀ s ∈ segments, s.range.Holds value s.source.toList
  whole : segments.flatMap (·.source.toList) = value.drop pos
  apart : segments.IsChain fun s t => ¬(s.isText = true ∧ t.isText = true)
  each : ∀ s ∈ segments, s.Exact value

/-! ## Characters from a place on -/

section

variable {value part rest : List Char} {pos : Nat}

theorem holds_of_drop (here : value.drop pos = part ++ rest) (hpos : pos ≤ value.length) :
    CharRange.Holds ⟨pos, pos + part.length⟩ value part := by
  refine ⟨value.take pos, rest, ?_, ?_⟩
  · rw [← here, take_append_drop]
  · rw [length_take_of_le hpos]

theorem drop_of_holds {r : CharRange} (h : r.Holds value part) :
    r.stop = r.start + part.length ∧ ∃ after, value.drop r.start = part ++ after := by
  obtain ⟨before, after, rfl, rfl⟩ := h
  exact ⟨rfl, after, drop_left⟩

theorem drop_add (here : value.drop pos = part ++ rest) :
    value.drop (pos + part.length) = rest := by
  rw [← drop_drop, here, drop_left]

theorem add_length_le (here : value.drop pos = part ++ rest) (hpos : pos ≤ value.length) :
    pos + part.length ≤ value.length := by
  have := congrArg List.length here
  rw [length_drop, length_append] at this
  omega

theorem not_mem_of_tagless {before : List Char} (h : Tagless (before ++ '<' :: after)) :
    '>' ∉ after := by
  intro closes
  apply h
  rw [dropWhile_append]
  split
  · rw [dropWhile_cons_of_neg (by simp)]
    exact mem_cons_of_mem _ closes
  · exact mem_append_right _ (mem_cons_of_mem _ closes)

end

/-! ## The parts of a tag -/

theorem intercalate_equals (raw : List Char) (texts : List (List Char)) :
    ['='].intercalate (raw :: texts) = raw ++ texts.flatMap ('=' :: ·) := by
  induction texts generalizing raw with
  | nil => simp
  | cons t texts ih => simp [ih]

theorem inner_eq (tag : Tag) (raw : List Char) :
    tag.inner raw = raw ++ tag.arguments.flatMap fun a => '=' :: a.text.toList := by
  rw [Tag.inner, intercalate_equals, flatMap_map]

theorem starts_with_equals (args : List TagArgument) :
    (args.flatMap fun a => '=' :: a.text.toList) = [] ∨
      ∃ more, (args.flatMap fun a => '=' :: a.text.toList) = '=' :: more := by
  cases args with
  | nil => exact Or.inl rfl
  | cons a args => exact Or.inr ⟨_, rfl⟩

/-- The first argument goes up to the next equals sign. -/
theorem argumentsFrom_cons (h : '=' ∉ text) (hrest : rest = [] ∨ ∃ more, rest = '=' :: more)
    (pos : Nat) :
    argumentsFrom pos ('=' :: (text ++ rest)) =
      ⟨String.ofList text, ⟨pos + 1, pos + 1 + text.length⟩⟩ ::
        argumentsFrom (pos + 1 + text.length) rest := by
  rw [argumentsFrom]
  rcases hrest with rfl | ⟨more, rfl⟩
  · rw [append_nil, splitPieces_of_not_mem h]
    rfl
  · rw [splitPieces_append h]
    rfl

/-- Arguments behind equals signs are read as they are. -/
theorem argumentsFrom_eq {args : List TagArgument} (placed : PlacedFrom pos args)
    (noEquals : ∀ a ∈ args, '=' ∉ a.text.toList) :
    argumentsFrom pos (args.flatMap fun a => '=' :: a.text.toList) = args := by
  induction args generalizing pos with
  | nil => rfl
  | cons a args ih =>
    obtain ⟨range, placed⟩ := placed
    obtain ⟨first, others⟩ := forall_mem_cons.1 noEquals
    rw [flatMap_cons, cons_append, argumentsFrom_cons first (starts_with_equals args),
      ih placed others, String.ofList_toList, ← range]

/-- Every text behind a name consists of arguments. -/
theorem exists_arguments (hrest : rest = [] ∨ ∃ more, rest = '=' :: more) (pos : Nat) :
    ∃ args, PlacedFrom pos args ∧ (∀ a ∈ args, '=' ∉ a.text.toList) ∧
      rest = args.flatMap fun a => '=' :: a.text.toList := by
  induction hn : rest.length using Nat.strongRecOn generalizing rest pos with
  | _ n ih =>
    rcases hrest with rfl | ⟨more, rfl⟩
    · exact ⟨[], trivial, by simp, rfl⟩
    · obtain ⟨before, name, behind, rest, h⟩ := exists_nameAt more
      have split : more = (before ++ (name ++ behind)) ++ rest := by
        rw [h.split]
        simp
      have shorter : rest.length < n := by
        rw [← hn, split]
        simp only [length_cons, length_append]
        omega
      have text := h.equals_not_mem
      generalize before ++ (name ++ behind) = first at split text
      obtain ⟨args, placed, noEquals, e⟩ :=
        ih _ shorter h.arguments (pos + 1 + first.length) rfl
      refine ⟨⟨String.ofList first, ⟨pos + 1, pos + 1 + first.length⟩⟩ :: args, ?_, ?_, ?_⟩
      · simpa [PlacedFrom] using placed
      · simpa using ⟨text, noEquals⟩
      · simp [split, ← e]

theorem located_of_placed {args : List TagArgument} (placed : PlacedFrom pos args)
    (hpos : pos ≤ value.length)
    (here : value.drop pos = (args.flatMap fun a => '=' :: a.text.toList) ++ rest) :
    ∀ a ∈ args, a.range.Holds value a.text.toList := by
  induction args generalizing pos with
  | nil => simp
  | cons a args ih =>
    obtain ⟨range, placed⟩ := placed
    have sign : value.drop pos = ['='] ++ (a.text.toList ++
        ((args.flatMap fun a => '=' :: a.text.toList) ++ rest)) := by
      simpa using here
    have behind := add_length_le sign hpos
    have text := drop_add sign
    refine forall_mem_cons.2 ⟨?_, ih placed (add_length_le text behind) (drop_add text)⟩
    rw [range]
    exact holds_of_drop text behind

section

variable {inner before name behind rest : List Char}

/-- The same name before other arguments. -/
theorem NameAt.with_rest (h : NameAt inner before name behind rest) {rest' : List Char}
    (hrest : rest' = [] ∨ ∃ more, rest' = '=' :: more) :
    NameAt (before ++ (name ++ behind) ++ rest') before name behind rest' where
  split := by simp
  blanksBefore := h.blanksBefore
  blanksBehind := h.blanksBehind
  first := h.first
  last := h.last
  empty := h.empty
  noEquals := h.noEquals
  arguments := hrest

/-- The arguments of a tag are read from behind its name and the blanks around it. -/
theorem NameAt.arguments_readTag (h : NameAt inner before name behind rest) (pos : Nat) :
    (readTag pos inner).arguments =
      argumentsFrom (pos + 1 + (before ++ (name ++ behind)).length) rest := by
  rw [(h.readTag_eq pos).2.2]
  congr 1
  simp only [length_append]
  omega

end

/-- A tag that is read consists of its parts. -/
theorem consists_readTag {inner : List Char}
    (here : value.drop pos = '<' :: (inner ++ '>' :: after)) (hpos : pos ≤ value.length)
    (closed : '>' ∉ inner) : ∃ raw, (readTag pos inner).Consists value raw := by
  obtain ⟨before, name, behind, rest, h⟩ := exists_nameAt inner
  obtain ⟨readName, readRange, -⟩ := h.readTag_eq pos
  obtain ⟨args, placed, noEquals, e⟩ :=
    exists_arguments h.arguments (pos + 1 + (before ++ (name ++ behind)).length)
  have readArguments : (readTag pos inner).arguments = args := by
    rw [h.arguments_readTag, e, argumentsFrom_eq placed noEquals]
  have whole : inner = (readTag pos inner).inner (before ++ (name ++ behind)) := by
    rw [inner_eq, readArguments, ← e, h.split]
    simp
  -- the bracket, the blanks before the name, the name, the blanks behind it, the arguments
  have opening : value.drop pos =
      ['<'] ++ (before ++ (name ++ (behind ++ (rest ++ '>' :: after)))) := by
    rw [here, h.split]
    simp
  have raw : value.drop pos = ('<' :: (before ++ (name ++ behind))) ++ (rest ++ '>' :: after) := by
    rw [opening]
    simp
  have hname : pos + 1 + before.length ≤ value.length :=
    add_length_le (drop_add opening) (add_length_le opening hpos)
  have atArguments : pos + ('<' :: (before ++ (name ++ behind))).length =
      pos + 1 + (before ++ (name ++ behind)).length := by
    rw [length_cons]
    omega
  refine ⟨before ++ (name ++ behind), ?_, ?_, h.equals_not_mem, ?_, ?_, ?_, ?_, ?_⟩
  · rw [← whole]
    simp [readTag]
  · rwa [← whole]
  · rwa [readArguments]
  · rw [readArguments]
    have behind := drop_add raw
    rw [atArguments, e] at behind
    exact located_of_placed placed (atArguments ▸ add_length_le raw hpos) behind
  · rw [readArguments]
    exact placed
  · refine ⟨before, behind, ?_, by rw [readRange]; rfl⟩
    have alone := h.with_rest (Or.inl rfl)
    rw [append_nil] at alone
    rwa [readName, String.toList_ofList]
  · rw [readName, readRange, String.toList_ofList]
    exact holds_of_drop (drop_add (drop_add opening)) hname

/-- A tag is what is read between its brackets. -/
theorem Tag.Consists.eq_readTag {tag : Tag} {raw : List Char} (h : tag.Consists value raw)
    (range : tag.range = ⟨pos, pos + tag.source.toList.length⟩) :
    tag = readTag pos (tag.inner raw) := by
  obtain ⟨before, behind, trimmed, start⟩ := h.trimmed
  have split : raw = before ++ (tag.name.toList ++ behind) := by simpa using trimmed.split
  have named := trimmed.with_rest (starts_with_equals tag.arguments)
  rw [← split, ← inner_eq] at named
  obtain ⟨readName, readRange, -⟩ := named.readTag_eq pos
  have placed : PlacedFrom (pos + 1 + raw.length) tag.arguments := by
    have := h.placed
    rwa [range] at this
  replace start : tag.nameRange.start = pos + 1 + before.length := by rw [start, range]
  have readArguments : (readTag pos (tag.inner raw)).arguments = tag.arguments := by
    rw [named.arguments_readTag, ← split, argumentsFrom_eq placed h.arguments]
  rw [String.ofList_toList] at readName
  have nameRange : tag.nameRange =
      ⟨pos + 1 + before.length, pos + 1 + before.length + tag.name.toList.length⟩ := by
    have stop := (drop_of_holds h.name).1
    rw [start] at stop
    rw [← stop, ← start]
  have source : tag.source = String.ofList ('<' :: tag.inner raw ++ ['>']) := by
    rw [cons_append, ← h.source, String.ofList_toList]
  have whole : tag.range = ⟨pos, pos + (tag.inner raw).length + 2⟩ := by
    rw [range, h.source, length_cons, length_append]
    rfl
  rw [← nameRange] at readRange
  calc tag = ⟨tag.name, tag.nameRange, tag.arguments, tag.range, tag.source⟩ := rfl
    _ = readTag pos (tag.inner raw) := by
      rw [← readName, ← readRange, ← readArguments, whole, source]
      rfl

/-! ## Segments behind a segment -/

section

variable {value : List Char} {pos : Nat} {s : Segment} {more : List Segment}

theorem divided_nil (value : List Char) : Divided value value.length [] where
  contiguous := rfl
  slices := by simp
  whole := by simp
  apart := .nil
  each := by simp

theorem Divided.cons (h : Divided value s.range.stop more)
    (slice : s.range.Holds value s.source.toList) (hs : s.Exact value)
    (next : ∀ t ∈ more.head?, ¬(s.isText = true ∧ t.isText = true)) :
    Divided value s.range.start (s :: more) where
  contiguous := ⟨rfl, h.contiguous⟩
  slices := forall_mem_cons.2 ⟨slice, h.slices⟩
  whole := by
    obtain ⟨stop, after, here⟩ := drop_of_holds slice
    have behind := drop_add here
    rw [← stop] at behind
    rw [flatMap_cons, h.whole, here, behind]
  apart := isChain_cons.2 ⟨next, h.apart⟩
  each := forall_mem_cons.2 ⟨hs, h.each⟩

/-- The first segment starts where the division does, and the others divide the rest. -/
theorem Divided.tail (h : Divided value pos (s :: more)) :
    s.range.start = pos ∧ Divided value s.range.stop more := by
  obtain ⟨start, contiguous⟩ := h.contiguous
  obtain ⟨slice, slices⟩ := forall_mem_cons.1 h.slices
  obtain ⟨stop, after, here⟩ := drop_of_holds slice
  have behind := drop_add here
  have whole := h.whole
  rw [← start, here] at whole
  refine ⟨start, contiguous, slices, ?_, (isChain_cons.1 h.apart).2,
    (forall_mem_cons.1 h.each).2⟩
  rw [stop, behind]
  exact append_cancel_left whole

/-- The characters of the first segment. -/
theorem Divided.first (h : Divided value pos (s :: more)) :
    s.range = ⟨pos, pos + s.source.toList.length⟩ ∧
      ∃ after, value.drop pos = s.source.toList ++ after := by
  obtain ⟨stop, after, here⟩ := drop_of_holds (h.slices s mem_cons_self)
  have start := h.tail.1
  rw [start] at stop here
  exact ⟨by rw [← stop, ← start], after, here⟩

end

/-! ## The segments of a text are a division -/

section

variable {value rest : List Char} {pos : Nat}

/-- A text before the rest of a division. -/
theorem Divided.text_cons {more : List Segment} (here : value.drop pos = text ++ after)
    (hpos : pos ≤ value.length)
    (unclosed : ∀ before behind, text = before ++ '<' :: behind →
      '>' ∉ value.drop (pos + before.length))
    (next : ∀ t ∈ more.head?, t.isText = false) (h : Divided value (pos + text.length) more) :
    Divided value pos (textSegment pos text ++ more) := by
  unfold textSegment
  split
  · next empty =>
    rw [List.isEmpty_iff.1 empty] at h
    exact h
  · next full =>
    refine Divided.cons (s := .text (String.ofList text) ⟨pos, pos + text.length⟩) h ?_ ?_ ?_
    · simpa [Segment.range, Segment.source] using holds_of_drop here hpos
    · exact ⟨by simpa using full, by simpa using unclosed⟩
    · intro t ht both
      rw [next t ht] at both
      exact absurd both.2 (by decide)

theorem divided_segmentsFrom (parts : List Part) (tagless : Tagless rest)
    (hpos : pos ≤ value.length) (here : value.drop pos = written parts rest) :
    Divided value pos (segmentsFrom pos (written parts rest)) := by
  induction parts generalizing pos with
  | nil =>
    have all : value.drop pos = rest ++ [] := by rw [here, written_nil, append_nil]
    have stop : pos + rest.length = value.length := by
      have := congrArg List.length all
      rw [length_drop, append_nil] at this
      omega
    rw [written_nil, segmentsFrom_tagless tagless, ← append_nil (textSegment pos rest)]
    refine Divided.text_cons all hpos ?_ (by simp) (stop ▸ divided_nil value)
    intro before behind split
    rw [split, append_nil] at all
    rw [drop_add all, mem_cons]
    rw [split] at tagless
    exact not_or.2 ⟨by decide, not_mem_of_tagless tagless⟩
  | cons p parts ih =>
    have text : value.drop pos = p.text ++ ('<' :: (p.inner ++ '>' :: written parts rest)) := by
      rw [here, written_cons, Part.written]
      simp
    have part : value.drop pos = p.written ++ written parts rest := by rw [here, written_cons]
    have tag := drop_add text
    have htag := add_length_le text hpos
    have later := ih (add_length_le part hpos) (drop_add part)
    rw [written_cons, segmentsFrom_part]
    refine Divided.text_cons text hpos ?_ (by simp [Segment.isText]) ?_
    · intro before behind split
      exact absurd (split ▸ mem_append_right _ mem_cons_self) p.plain
    · have stop : pos + p.written.length = (readTag (pos + p.text.length) p.inner).range.stop := by
        rw [length_written]
        simp only [readTag]
        omega
      rw [stop] at later ⊢
      refine Divided.cons (s := .tag (readTag (pos + p.text.length) p.inner)) later ?_ ?_ ?_
      · have source : value.drop (pos + p.text.length) =
            ('<' :: p.inner ++ ['>']) ++ written parts rest := by
          rw [tag]
          simp
        have slice := holds_of_drop source htag
        simpa [Segment.range, Segment.source, readTag, Nat.add_assoc] using slice
      · exact consists_readTag tag htag p.closed
      · simp [Segment.isText]

end

/-! ## There is no other division -/

section

variable {value : List Char} {pos : Nat} {segments : List Segment}

/-- Where no bracket that is opened is closed, there is one text at most. -/
theorem Divided.eq_textSegment (h : Divided value pos segments)
    (tagless : Tagless (value.drop pos)) : segments = textSegment pos (value.drop pos) := by
  have texts : ∀ s ∈ segments, s.isText = true := by
    intro s hs
    cases s with
    | text source range => rfl
    | tag t =>
      obtain ⟨before, behind, rfl⟩ := append_of_mem hs
      obtain ⟨raw, consists⟩ := h.each (.tag t) hs
      have whole := h.whole
      rw [flatMap_append, flatMap_cons, Segment.source, consists.source] at whole
      rw [← whole] at tagless
      exact absurd (by simp) (not_mem_of_tagless tagless)
  cases segments with
  | nil =>
    have none : value.drop pos = [] := h.whole.symm
    rw [none]
    rfl
  | cons s more =>
    cases more with
    | cons t more =>
      have apart := (isChain_cons_cons.1 h.apart).1
      exact absurd ⟨texts s (by simp), texts t (by simp)⟩ apart
    | nil =>
      cases s with
      | tag t => exact absurd (texts (.tag t) (by simp)) (by simp [Segment.isText])
      | text source range =>
        have whole : source.toList = value.drop pos := by simpa [Segment.source] using h.whole
        have full : source.toList ≠ [] := (h.each (.text source range) (by simp)).1
        obtain rfl : range = ⟨pos, pos + source.toList.length⟩ := h.first.1
        rw [← whole, textSegment, if_neg (by simpa using full), String.ofList_toList]

theorem Divided.exists_cons (h : Divided value pos segments) {c : Char}
    (here : value.drop pos = c :: rest) : ∃ s more, segments = s :: more := by
  refine exists_cons_of_ne_nil fun none => ?_
  have whole := h.whole
  simp [none, here] at whole

/-- A bracket that is closed somewhere starts a tag, which goes up to the first closing one. -/
theorem Divided.tag_first (h : Divided value pos segments) {inner : List Char}
    (here : value.drop pos = '<' :: (inner ++ '>' :: after)) (closed : '>' ∉ inner) :
    ∃ more, segments = .tag (readTag pos inner) :: more ∧
      Divided value (pos + inner.length + 2) more := by
  obtain ⟨s, more, rfl⟩ := h.exists_cons here
  obtain ⟨range, behind, first⟩ := h.first
  have later := h.tail.2
  have hs := h.each s mem_cons_self
  rw [here] at first
  cases s with
  | text source r =>
    obtain ⟨full, unclosed⟩ := hs
    obtain ⟨c, cs, e⟩ := exists_cons_of_ne_nil full
    rw [Segment.source, e, cons_append, cons.injEq] at first
    obtain rfl : r = ⟨pos, pos + source.toList.length⟩ := range
    have none := unclosed [] cs (by rw [e, ← first.1]; rfl)
    rw [length_nil, Nat.add_zero, here] at none
    simp at none
  | tag t =>
    obtain ⟨raw, consists⟩ := hs
    rw [Segment.source, consists.source] at first
    have same : inner = t.inner raw := by
      have rests : inner ++ '>' :: after = t.inner raw ++ '>' :: behind := by simpa using first
      have front := congrArg (List.takeWhile (· != '>')) rests
      rwa [takeWhile_ne_append closed, takeWhile_ne_append consists.closed] at front
    have read := consists.eq_readTag range
    rw [← same] at read
    refine ⟨more, by rw [← read], ?_⟩
    rw [range, Segment.source, consists.source, ← same] at later
    simpa [Nat.add_assoc] using later

/-- A character that opens no bracket starts a text. -/
theorem Divided.exists_text (h : Divided value pos segments) {c : Char}
    (here : value.drop pos = c :: rest) (hc : c ≠ '<') :
    ∃ source more, segments = .text source ⟨pos, pos + source.toList.length⟩ :: more := by
  obtain ⟨s, more, rfl⟩ := h.exists_cons here
  obtain ⟨range, behind, first⟩ := h.first
  cases s with
  | text source r =>
    obtain rfl : r = ⟨pos, pos + source.toList.length⟩ := range
    exact ⟨source, more, rfl⟩
  | tag t =>
    obtain ⟨raw, consists⟩ := h.each (.tag t) mem_cons_self
    rw [here, Segment.source, consists.source, cons_append, cons.injEq] at first
    exact absurd first.1 hc

/-- A text goes up to the first bracket, if that is closed somewhere. -/
theorem Divided.text_first (h : Divided value pos segments)
    (here : value.drop pos = text ++ '<' :: after) (plain : '<' ∉ text) (closes : '>' ∈ after) :
    ∃ more, segments = textSegment pos text ++ more ∧ Divided value (pos + text.length) more := by
  cases text with
  | nil => exact ⟨segments, rfl, h⟩
  | cons c cs =>
    have noBracket {d : Char} (hd : d ∈ c :: cs) : d ≠ '<' := fun e => plain (e ▸ hd)
    obtain ⟨source, more, rfl⟩ := h.exists_text here (noBracket mem_cons_self)
    obtain ⟨full, unclosed⟩ := h.each _ mem_cons_self
    obtain ⟨-, behind, first⟩ := h.first
    rw [Segment.source] at first
    have later : Divided value (pos + source.toList.length) more := h.tail.2
    have whole : source.toList = c :: cs := by
      rcases append_eq_append_iff.1 (here.symm.trans first) with
        ⟨further, longer, e⟩ | ⟨missing, shorter, e⟩
      · cases further with
        | nil => rw [longer, append_nil]
        | cons d further =>
          -- the bracket would be inside the text
          obtain ⟨rfl, -⟩ := cons_eq_cons.1 e
          have none := unclosed _ _ longer
          rw [drop_add here] at none
          exact absurd (mem_cons_of_mem _ closes) none
      · cases missing with
        | nil => rw [shorter, append_nil]
        | cons d missing =>
          -- another text would be next to it
          have next := drop_add first
          rw [e] at next
          have hd : d ∈ c :: cs := by rw [shorter]; simp
          obtain ⟨source', more', rfl⟩ := later.exists_text next (noBracket hd)
          exact absurd ⟨rfl, rfl⟩ (isChain_cons_cons.1 h.apart).1
    refine ⟨more, ?_, whole ▸ later⟩
    rw [← whole, textSegment, if_neg (by simpa using full), String.ofList_toList]
    rfl

theorem Divided.eq_segmentsFrom (h : Divided value pos segments) (parts : List Part)
    (tagless : Tagless rest) (here : value.drop pos = written parts rest) :
    segments = segmentsFrom pos (written parts rest) := by
  induction parts generalizing pos segments with
  | nil =>
    rw [written_nil] at here ⊢
    rw [segmentsFrom_tagless tagless, ← here]
    exact h.eq_textSegment (here ▸ tagless)
  | cons p parts ih =>
    have text : value.drop pos = p.text ++ ('<' :: (p.inner ++ '>' :: written parts rest)) := by
      rw [here, written_cons, Part.written]
      simp
    have part : value.drop pos = p.written ++ written parts rest := by rw [here, written_cons]
    obtain ⟨fromTag, rfl, atTag⟩ := h.text_first text p.plain (by simp)
    obtain ⟨more, rfl, behind⟩ := atTag.tag_first (drop_add text) p.closed
    have stop : pos + p.text.length + p.inner.length + 2 = pos + p.written.length := by
      rw [length_written]
      omega
    rw [stop] at behind
    rw [written_cons, segmentsFrom_part, ih behind (drop_add part)]

end

/-- The segments of a text divide it, and this is the only way to divide it. -/
theorem segments_divided (value : String) :
    Divided value.toList 0 (segments value) ∧
      ∀ other, Divided value.toList 0 other → other = segments value := by
  obtain ⟨parts, rest, tagless, e⟩ := exists_parts value.toList
  have here : value.toList.drop 0 = written parts rest := e.symm
  unfold segments
  rw [← e]
  constructor
  · exact e ▸ divided_segmentsFrom parts tagless (Nat.zero_le _) here
  · intro other h
    exact (e ▸ h).eq_segmentsFrom parts tagless (e ▸ here)

end ModCheck.RichText
