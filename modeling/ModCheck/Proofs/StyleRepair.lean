import ModCheck.Proofs.Edits
import ModCheck.Proofs.OptionEffects
import ModCheck.Proofs.TagParts

/-
  Putting the equals signs in behind the names of tags. A tag without arguments that is asked for
  one gets an empty argument that way and is in order (`Asked.opened`). The command tag is asked
  for one as well if its command has no arguments, but there the equals sign takes the place before
  the command, so that the tag names no command any more. A text in which nothing else is wrong is
  in order afterwards just if none of its command tags was asked for an equals sign
  (`style_fix_leaves`).
-/

namespace ModCheck.RichText

open List
open Text (Piece splitPieces isBlank)

variable {before behind inner name rest : List Char} {p : Part} {parts : List Part} {pos : Nat}
  {tag : Tag} {value : String}

/-! ## The name of a tag -/

/-- A tag's name between its brackets: what stands before it and behind it up to the arguments are
blanks. -/
structure NameAt (inner before name behind rest : List Char) : Prop where
  split : inner = before ++ (name ++ (behind ++ rest))
  blanksBefore : ∀ c ∈ before, isBlank c = true
  blanksBehind : ∀ c ∈ behind, isBlank c = true
  first : ∀ c, name.head? = some c → isBlank c = false
  last : ∀ c, name.getLast? = some c → isBlank c = false
  empty : name = [] → behind = []
  noEquals : '=' ∉ name
  arguments : rest = [] ∨ ∃ more, rest = '=' :: more

theorem not_mem_of_blank {c : Char} {cs : List Char} (h : ∀ c ∈ cs, isBlank c = true)
    (hc : isBlank c = false) : c ∉ cs :=
  fun hmem => by simp [h c hmem] at hc

theorem isBlank_head_dropWhile (cs : List Char) :
    ∀ c, (cs.dropWhile isBlank).head? = some c → isBlank c = false := by
  intro c h
  have := head?_dropWhile_not isBlank cs
  rwa [h] at this

/-- The blanks around a text. -/
theorem exists_blanks (cs : List Char) :
    ∃ before body behind, cs = before ++ (body ++ behind) ∧ (∀ c ∈ before, isBlank c = true) ∧
      (∀ c ∈ behind, isBlank c = true) ∧ (∀ c, body.head? = some c → isBlank c = false) ∧
      (∀ c, body.getLast? = some c → isBlank c = false) ∧ (body = [] → behind = []) := by
  have front := takeWhile_append_dropWhile (p := isBlank) (l := cs)
  have first := isBlank_head_dropWhile cs
  generalize cs.dropWhile isBlank = solid at front first
  have back := takeWhile_append_dropWhile (p := isBlank) (l := solid.reverse)
  have last := isBlank_head_dropWhile solid.reverse
  have blanks : ∀ c ∈ solid.reverse.takeWhile isBlank, isBlank c = true :=
    fun c hc => mem_takeWhile_imp hc
  generalize solid.reverse.takeWhile isBlank = behind at back blanks
  generalize solid.reverse.dropWhile isBlank = body at back last
  have split : solid = body.reverse ++ behind.reverse := by
    rw [← reverse_append, back, reverse_reverse]
  refine ⟨cs.takeWhile isBlank, body.reverse, behind.reverse, by rw [← split, front],
    fun c hc => mem_takeWhile_imp hc, fun c hc => blanks c (mem_reverse.1 hc), ?_, ?_, ?_⟩
  · intro c hc
    apply first
    rw [split, head?_append, hc]
    rfl
  · intro c hc
    apply last
    rwa [← getLast?_reverse]
  · intro none
    rw [split, none] at first
    cases h : behind.reverse with
    | nil => rfl
    | cons c cs =>
      have solid := first c (by rw [h]; rfl)
      rw [blanks c (mem_reverse.1 (by simp [h]))] at solid
      exact absurd solid (by decide)

theorem exists_nameAt (inner : List Char) :
    ∃ before name behind rest, NameAt inner before name behind rest := by
  have noEquals := not_mem_takeWhile_ne '=' inner
  obtain ⟨before, name, behind, split, h⟩ := exists_blanks (inner.takeWhile (· != '='))
  have cut := takeWhile_append_dropWhile (p := (· != '=')) (l := inner)
  refine ⟨before, name, behind, inner.dropWhile (· != '='), ?_, h.1, h.2.1, h.2.2.1, h.2.2.2.1,
    h.2.2.2.2, ?_, ?_⟩
  · conv_lhs => rw [← cut, split]
    simp
  · intro hmem
    apply noEquals
    rw [split]
    simp [hmem]
  · by_cases h : '=' ∈ inner
    · right
      refine ⟨inner.drop ((inner.takeWhile (· != '=')).length + 1), ?_⟩
      conv_lhs => rw [split_at_first (contains_iff_mem.2 h)]
      exact dropWhile_ne_append noEquals _
    · left
      exact dropWhile_eq_nil_iff.2 fun c hc => by simpa using fun e : c = '=' => h (e ▸ hc)

/-- The arguments of a tag, from the equals sign behind its name on. -/
def argumentsFrom (pos : Nat) : List Char → List TagArgument
  | [] => []
  | _ :: more => (splitPieces '=' (pos + 1) more).map TagArgument.ofPiece

namespace NameAt

variable {inner before name behind rest : List Char} (h : NameAt inner before name behind rest)
include h

theorem head_ne_blank : ∀ c, (name ++ behind).head? = some c → isBlank c = false := by
  intro c hc
  by_cases hname : name = []
  · simp [hname, h.empty hname] at hc
  · obtain ⟨d, ds, rfl⟩ := exists_cons_of_ne_nil hname
    exact h.first c hc

theorem trim_eq : Text.trim (before ++ (name ++ behind)) = name := by
  have back : (name ++ behind).reverse.dropWhile isBlank = name.reverse := by
    rw [reverse_append]
    refine dropWhile_blanks (fun c hc => h.blanksBehind c (mem_reverse.1 hc)) fun c hc => ?_
    exact h.last c (by rwa [← head?_reverse])
  rw [Text.trim, Text.trimStart, dropWhile_blanks h.blanksBefore h.head_ne_blank, Text.trimEnd,
    back, reverse_reverse]

theorem takeWhile_eq : (before ++ (name ++ behind)).takeWhile isBlank = before := by
  rw [takeWhile_append_of_pos h.blanksBefore]
  have none : (name ++ behind).takeWhile isBlank = [] := by
    cases e : name ++ behind with
    | nil => rfl
    | cons c cs =>
      have := h.head_ne_blank c (by rw [e]; rfl)
      exact takeWhile_cons_of_neg (by simp [this])
  rw [none, append_nil]

/-- The piece before the first equals sign. -/
theorem equals_not_mem : '=' ∉ before ++ (name ++ behind) := by
  have sign : isBlank '=' = false := by decide
  simp only [mem_append, not_or]
  exact ⟨not_mem_of_blank h.blanksBefore sign, h.noEquals, not_mem_of_blank h.blanksBehind sign⟩

theorem splitPieces_eq (pos : Nat) :
    ∃ range : CharRange, range.start = pos ∧
      (splitPieces '=' pos inner).head? = some ⟨before ++ (name ++ behind), range⟩ ∧
      (splitPieces '=' pos inner).tail.map TagArgument.ofPiece =
        argumentsFrom (pos + before.length + name.length + behind.length) rest := by
  have whole : inner = (before ++ (name ++ behind)) ++ rest := by
    rw [h.split]
    simp
  have length : pos + (before ++ (name ++ behind)).length =
      pos + before.length + name.length + behind.length := by
    simp only [length_append]
    omega
  rcases h.arguments with hrest | ⟨more, hrest⟩
  · rw [whole, hrest, append_nil, splitPieces_of_not_mem h.equals_not_mem]
    exact ⟨_, rfl, rfl, rfl⟩
  · rw [whole, hrest, splitPieces_append h.equals_not_mem, length]
    exact ⟨_, rfl, rfl, rfl⟩

/-- What is read from a tag. -/
theorem readTag_eq (pos : Nat) :
    (readTag pos inner).name = String.ofList name ∧
      (readTag pos inner).nameRange =
        ⟨pos + 1 + before.length, pos + 1 + before.length + name.length⟩ ∧
      (readTag pos inner).arguments =
        argumentsFrom (pos + 1 + before.length + name.length + behind.length) rest := by
  obtain ⟨range, start, head, tail⟩ := h.splitPieces_eq (pos + 1)
  obtain ⟨p, ps, -, e, -⟩ := splitPieces_head '=' (pos + 1) inner
  rw [e] at head
  obtain rfl := Option.some.inj head
  rw [e] at tail
  simp only [readTag, e, headD_cons, Piece.trim, h.trim_eq, h.takeWhile_eq, start]
  exact ⟨trivial, trivial, tail⟩

/-- With an equals sign behind its name. -/
theorem opened : NameAt (before ++ (name ++ '=' :: (behind ++ rest))) before name []
    ('=' :: (behind ++ rest)) where
  split := by simp
  blanksBefore := h.blanksBefore
  blanksBehind := by simp
  first := h.first
  last := h.last
  empty _ := rfl
  noEquals := h.noEquals
  arguments := Or.inr ⟨_, rfl⟩

end NameAt

/-! ## Tags that are asked for an equals sign -/

/-- The issue of a tag that is asked for an equals sign. -/
def styleIssue (tag : Tag) : Issue :=
  { severity := .info, code := .zeroArgumentStyle
    text := "Tags without arguments are written as <" ++ tag.name ++ "=>"
    range := tag.nameRange
    replacement := some (tag.name ++ "=") }

variable {s : Checker}

/-- Among the issues of arguments, the one about style is always alone. -/
theorem argumentIssues_style {label : String} {spec : TagSpec} {arguments : List TagArgument}
    (only : ∀ i ∈ argumentIssues s label spec tag arguments, i.code = .zeroArgumentStyle) :
    argumentIssues s label spec tag arguments = [] ∨
      arguments = [] ∧ spec.required = [] ∧
        argumentIssues s label spec tag arguments = [styleIssue tag] := by
  have formulas (q : TagArgument × TagParameter) : ∀ i ∈ (if q.2.isFormula && !q.1.isEmpty &&
      !q.1.text.toList.contains '<' then formulaIssues s q.1 else []),
        i.code ≠ .zeroArgumentStyle := by
    intro i hi
    split at hi
    · exact formulaIssues_ne_style s q.1 i hi
    · simp at hi
  unfold argumentIssues at only ⊢
  dsimp only at only ⊢
  generalize (if arguments.getLast?.any (·.isEmpty) = true then arguments.length - 1 else
    arguments.length) = counted at only ⊢
  by_cases many : spec.maxArguments < counted
  · rw [if_pos many] at only
    exact nomatch only _ mem_cons_self
  · rw [if_neg many] at only ⊢
    by_cases few : arguments.length < spec.required.length
    · rw [if_pos few] at only
      exact nomatch only _ mem_cons_self
    · rw [if_neg few] at only ⊢
      by_cases bare : (s.styleHints && arguments.length == 0) = true
      · obtain ⟨-, none⟩ := Bool.and_eq_true_iff.1 bare
        obtain rfl : arguments = [] := eq_nil_of_length_eq_zero (beq_iff_eq.1 none)
        refine Or.inr ⟨rfl, eq_nil_of_length_eq_zero ?_, ?_⟩
        · exact Nat.eq_zero_of_not_pos few
        · rw [if_pos bare]
          rfl
      · left
        rw [if_neg bare] at only ⊢
        refine eq_nil_iff_forall_not_mem.2 fun i hi => ?_
        obtain ⟨q, -, here⟩ := mem_flatMap.1 hi
        exact formulas q i here (only i hi)

theorem commandIssues_style (only : ∀ i ∈ commandIssues s tag, i.code = .zeroArgumentStyle) :
    commandIssues s tag = [] ∨ commandIssues s tag = [styleIssue tag] := by
  unfold commandIssues at only ⊢
  cases h : tag.arguments with
  | nil =>
    rw [h] at only
    exact nomatch only _ mem_cons_self
  | cons command rest =>
    rw [h] at only
    dsimp only at only ⊢
    by_cases blank : command.isEmpty = true
    · rw [if_pos blank] at only
      exact nomatch only _ mem_cons_self
    · rw [if_neg blank] at only ⊢
      split at only
      · exact (argumentIssues_style only).imp_right fun ⟨_, _, style⟩ => style
      · exact nomatch only _ mem_cons_self

/-- Whether the first argument of a tag is a command. -/
def Checker.takesCommand (s : Checker) (tag : Tag) : Bool :=
  (s.schema.tags.findTag? tag.name).any (·.name.toLower == commandTagName)

/-- A tag that is asked for an equals sign, and about which there is nothing else to say. -/
structure Asked (s : Checker) (tag : Tag) : Prop where
  issues : tagIssues s tag = [styleIssue tag]
  name : tag.name.toList.contains '<' = false
  brackets : ∀ x ∈ tag.arguments, x.text.toList.contains '<' = false
  known : ∃ spec, s.schema.tags.findTag? tag.name = some spec ∧
    (s.takesCommand tag = false → tag.arguments = [] ∧ spec.required = [])

theorem asked_of_style (only : ∀ i ∈ tagIssues s tag, i.code = .zeroArgumentStyle) :
    tagIssues s tag = [] ∨ Asked s tag := by
  by_cases nested : tag.name.toList.contains '<' = true
  · rw [tagIssues, if_pos nested] at only
    exact nomatch only _ mem_cons_self
  · have issues := tagIssues.eq_1 s tag
    rw [if_neg nested] at issues
    have brackets : ∀ x ∈ tag.arguments, x.text.toList.contains '<' = false := by
      intro x hx
      by_contra h
      have here : bracketIssue x.range ∈ tagIssues s tag := by
        rw [issues]
        refine mem_append_left _ (mem_map_of_mem (mem_filter.2 ⟨hx, ?_⟩))
        simpa using h
      exact nomatch only _ here
    have none : tag.arguments.filter (·.text.toList.contains '<') = [] :=
      filter_eq_nil_iff.2 fun x hx => by simpa using brackets x hx
    rw [none] at issues
    cases found : s.schema.tags.findTag? tag.name with
    | none =>
      rw [found] at issues
      rw [issues] at only
      exact nomatch only _ mem_cons_self
    | some spec =>
      rw [found] at issues
      dsimp only at issues
      by_cases command : (spec.name.toLower == commandTagName) = true
      · have takes : s.takesCommand tag = true := by
          rw [Checker.takesCommand, found]
          exact command
        rw [if_pos command] at issues
        rw [issues] at only
        refine (commandIssues_style only).imp (issues.trans ·) fun style => ?_
        exact ⟨issues.trans style, by simpa using nested, brackets, spec, found, by simp [takes]⟩
      · rw [if_neg command] at issues
        rw [issues] at only
        refine (argumentIssues_style only).imp (issues.trans ·) fun ⟨empty, required, style⟩ => ?_
        exact ⟨issues.trans style, by simpa using nested, brackets, spec, found,
          fun _ => ⟨empty, required⟩⟩

/-- One empty argument is none too many, and there is no formula in it. -/
theorem argumentIssues_blank {blank : TagArgument} (empty : blank.isEmpty = true) {spec : TagSpec}
    (required : spec.required = []) (label : String) (tag : Tag) :
    argumentIssues s label spec tag [blank] = [] := by
  unfold argumentIssues
  cases spec.parameters with
  | nil => simp [empty, required]
  | cons parameter parameters => simp [empty, required]

/-- With an empty argument before the others a plain tag is in order, and the command tag lacks its
command. -/
theorem Asked.opened {tag' : Tag} (asked : Asked s tag) (name : tag'.name = tag.name)
    {blank : TagArgument} (empty : blank.isEmpty = true) {n : Nat}
    (arguments : tag'.arguments = blank :: tag.arguments.map (·.shift n)) :
    tagIssues s tag' = if s.takesCommand tag then [commandIssues.missing tag'] else [] := by
  obtain ⟨-, plain, brackets, spec, found, known⟩ := asked
  have none : tag'.arguments.filter (·.text.toList.contains '<') = [] := by
    rw [arguments]
    refine filter_eq_nil_iff.2 (forall_mem_cons.2 ⟨?_, ?_⟩)
    · have open' : '<' ∉ blank.text.toList :=
        not_mem_of_blank (all_eq_true.1 empty) (by decide)
      simpa using open'
    · rw [forall_mem_map]
      intro x hx
      have := brackets x hx
      simpa [TagArgument.shift] using this
  have takes : s.takesCommand tag = (spec.name.toLower == commandTagName) := by
    rw [Checker.takesCommand, found]
    rfl
  rw [tagIssues, name, plain, none, found, takes]
  by_cases command : (spec.name.toLower == commandTagName) = true
  · simp [command, commandIssues, arguments, empty]
  · obtain ⟨bare, required⟩ := known (by rw [takes]; simpa using command)
    rw [bare] at arguments
    simp [command, arguments, argumentIssues_blank empty required]

/-! ## The text with equals signs -/

/-- What stands between the brackets of a tag, with an equals sign behind the name. -/
def opened (inner : List Char) : List Char :=
  let stop := (readTag 0 inner).nameRange.stop - 1
  inner.take stop ++ '=' :: inner.drop stop

theorem NameAt.opened_eq (h : NameAt inner before name behind rest) :
    RichText.opened inner = before ++ (name ++ '=' :: (behind ++ rest)) := by
  have stop : (readTag 0 inner).nameRange.stop - 1 = (before ++ name).length := by
    rw [(h.readTag_eq 0).2.1, length_append]
    dsimp only
    omega
  have split : inner = (before ++ name) ++ (behind ++ rest) := by
    rw [h.split]
    simp
  rw [RichText.opened, stop]
  conv_lhs => rw [split]
  rw [take_left]
  simp

theorem argumentsFrom_opened (noEquals : '=' ∉ behind)
    (hrest : rest = [] ∨ ∃ more, rest = '=' :: more) (pos : Nat) :
    argumentsFrom pos ('=' :: (behind ++ rest)) =
      TagArgument.ofPiece ⟨behind, ⟨pos + 1, pos + 1 + behind.length⟩⟩ ::
        (argumentsFrom (pos + behind.length) rest).map (·.shift 1) := by
  rcases hrest with rfl | ⟨more, rfl⟩
  · have alone := splitPieces_of_not_mem noEquals (pos + 1)
    rw [append_nil, argumentsFrom.eq_2, alone]
    rfl
  · have later := splitPieces_shift '=' (pos + behind.length + 1) 1 more
    rw [argumentsFrom, splitPieces_append noEquals, Nat.add_right_comm pos 1, later, argumentsFrom,
      map_cons, map_map, map_map]
    rfl

/-- An equals sign gives a tag an empty argument before the others. -/
theorem readTag_opened (pos : Nat) (inner : List Char) :
    (readTag pos (opened inner)).name = (readTag pos inner).name ∧
      ∃ blank : TagArgument, blank.isEmpty = true ∧
        (readTag pos (opened inner)).arguments =
          blank :: (readTag pos inner).arguments.map (·.shift 1) := by
  obtain ⟨before, name, behind, rest, h⟩ := exists_nameAt inner
  obtain ⟨hname, -, harguments⟩ := h.readTag_eq pos
  obtain ⟨hname', -, harguments'⟩ := h.opened.readTag_eq pos
  have noEquals : '=' ∉ behind := not_mem_of_blank h.blanksBehind (by decide)
  rw [length_nil, Nat.add_zero, argumentsFrom_opened noEquals h.arguments,
    ← harguments] at harguments'
  rw [h.opened_eq]
  refine ⟨hname'.trans hname.symm, _, ?_, harguments'⟩
  simpa [TagArgument.isEmpty, TagArgument.ofPiece] using h.blanksBehind

theorem not_mem_opened (h : '>' ∉ inner) : '>' ∉ opened inner := by
  unfold opened
  simp only [mem_append, mem_cons, not_or]
  exact ⟨fun hm => h (mem_of_mem_take hm), by decide, fun hm => h (mem_of_mem_drop hm)⟩

/-- Whether there is an issue about a tag. -/
def Checker.asks (s : Checker) (tag : Tag) : Bool :=
  !(tagIssues s tag).isEmpty

theorem asks_readTag (pos : Nat) (inner : List Char) :
    s.asks (readTag pos inner) = s.asks (readTag 0 inner) := by
  rw [Checker.asks, tagIssues_readTag, isEmpty_map]
  rfl

/-- A part whose tag has an equals sign behind its name, if it is asked for one. -/
def Part.repair (s : Checker) (p : Part) : Part :=
  if s.asks (readTag 0 p.inner) then ⟨p.text, opened p.inner, p.plain, not_mem_opened p.closed⟩
  else p

theorem Part.repair_of_quiet (h : s.asks (readTag pos p.inner) = false) : p.repair s = p := by
  rw [asks_readTag] at h
  rw [Part.repair, if_neg (by simp [h])]

theorem Part.repair_of_asks (h : s.asks (readTag pos p.inner) = true) :
    (p.repair s).text = p.text ∧ (p.repair s).inner = opened p.inner := by
  rw [asks_readTag] at h
  rw [Part.repair, if_pos h]
  exact ⟨rfl, rfl⟩

/-- Whether a tag is asked for an equals sign and takes a command. -/
def Checker.losesCommand (s : Checker) (tag : Tag) : Bool :=
  s.asks tag && s.takesCommand tag

/-- What is wrong about a command tag without a command. -/
def missingCommand (tag : Tag) : Code × String :=
  (.tagArity, "Tag '" ++ tag.name ++ "' expects a command name")

/-- What is left to say about the tag of a part. -/
theorem tagIssues_repair
    (only : ∀ i ∈ tagIssues s (readTag pos p.inner), i.code = .zeroArgumentStyle) (pos' : Nat) :
    (tagIssues s (readTag pos' (p.repair s).inner)).map (fun i => (i.code, i.text)) =
      ([readTag pos p.inner].filter s.losesCommand).map missingCommand := by
  have name (n : Nat) : (readTag n p.inner).name = (readTag 0 p.inner).name := by
    have := readTag_shift 0 n p.inner
    rw [Nat.zero_add] at this
    rw [this]
    rfl
  have takes (n : Nat) :
      s.takesCommand (readTag n p.inner) = s.takesCommand (readTag 0 p.inner) := by
    rw [Checker.takesCommand, name]
    rfl
  have only' : ∀ i ∈ tagIssues s (readTag pos' p.inner), i.code = .zeroArgumentStyle := by
    rw [tagIssues_readTag, forall_mem_map] at only ⊢
    exact only
  have asks : s.losesCommand (readTag pos p.inner) =
      (s.asks (readTag pos' p.inner) && s.takesCommand (readTag pos' p.inner)) := by
    rw [Checker.losesCommand, asks_readTag, asks_readTag pos', takes, takes pos']
  rcases asked_of_style only' with none | asked
  · have quiet : s.asks (readTag pos' p.inner) = false := by simp [Checker.asks, none]
    simp [Part.repair_of_quiet quiet, none, asks, quiet]
  · have loud : s.asks (readTag pos' p.inner) = true := by simp [Checker.asks, asked.issues]
    obtain ⟨hname, blank, empty, arguments⟩ := readTag_opened pos' p.inner
    rw [(Part.repair_of_asks loud).2, asked.opened hname empty arguments]
    cases command : s.takesCommand (readTag pos' p.inner) with
    | false => simp [asks, command]
    | true => simp [asks, loud, command, commandIssues.missing, missingCommand, hname, name]

/-- What is left to say about all tags. -/
theorem tagsFrom_repair
    (only : ∀ t ∈ tagsFrom pos parts, ∀ i ∈ tagIssues s t, i.code = .zeroArgumentStyle)
    (pos' : Nat) :
    ((tagsFrom pos' (parts.map (·.repair s))).flatMap (tagIssues s)).map
        (fun i => (i.code, i.text)) =
      ((tagsFrom pos parts).filter s.losesCommand).map missingCommand := by
  induction parts generalizing pos pos' with
  | nil => rfl
  | cons p parts ih =>
    obtain ⟨first, rest⟩ := forall_mem_cons.1 only
    rw [map_cons, tagsFrom, tagsFrom, flatMap_cons, map_append, ih rest,
      tagIssues_repair first, ← map_append, ← filter_append, singleton_append]

/-! ## The corrections -/

/-- Putting an equals sign in behind the name of a tag. -/
def Tag.edit (file : String) (value : List Char) (tag : Tag) : Edit :=
  ⟨tag.nameRange.start, tag.nameRange.stop,
    ⟨file, tag.nameRange.toSpan value ⟨1, 0⟩, tag.name ++ "="⟩⟩

theorem NameAt.length_eq (h : NameAt inner before name behind rest) :
    inner.length = before.length + name.length + behind.length + rest.length := by
  rw [h.split]
  simp only [length_append]
  omega

/-- The name of a part's tag stands inside the part. -/
theorem nameRange_bounds (p : Part) (pos : Nat) :
    pos < (readTag (pos + p.text.length) p.inner).nameRange.start ∧
      (readTag (pos + p.text.length) p.inner).nameRange.start ≤
        (readTag (pos + p.text.length) p.inner).nameRange.stop ∧
      (readTag (pos + p.text.length) p.inner).nameRange.stop < pos + p.written.length := by
  obtain ⟨before, name, behind, rest, h⟩ := exists_nameAt p.inner
  have length := h.length_eq
  rw [(h.readTag_eq _).2.1, length_written]
  dsimp only
  omega

theorem tagsFrom_bounds :
    ∀ t ∈ tagsFrom pos parts, pos < t.nameRange.start ∧ t.nameRange.start ≤ t.nameRange.stop ∧
      t.nameRange.stop < pos + (parts.flatMap Part.written).length := by
  induction parts generalizing pos with
  | nil => simp [tagsFrom]
  | cons p parts ih =>
    rw [flatMap_cons, length_append]
    refine forall_mem_cons.2 ⟨?_, fun t ht => ?_⟩
    · have := nameRange_bounds p pos
      omega
    · have := ih t ht
      omega

theorem tagsFrom_apart (parts : List Part) (pos : Nat) :
    (tagsFrom pos parts).Pairwise fun a b => a.nameRange.stop < b.nameRange.start := by
  induction parts generalizing pos with
  | nil => exact .nil
  | cons p parts ih =>
    refine pairwise_cons.2 ⟨fun t ht => ?_, ih _⟩
    have := nameRange_bounds p pos
    have := tagsFrom_bounds t ht
    omega

/-- The edits put the equals signs in, part by part. -/
theorem substitute_written (file : String) (value : List Char) (parts : List Part) (pos : Nat)
    (rest : List Char) :
    substitute pos (((tagsFrom pos parts).filter s.asks).map (Tag.edit file value))
        (written parts rest) =
      written (parts.map (·.repair s)) rest := by
  induction parts generalizing pos with
  | nil => rfl
  | cons p parts ih =>
    have later : ∀ e, (((tagsFrom (pos + p.written.length) parts).filter s.asks).map
        (Tag.edit file value)).head? = some e → pos + p.written.length ≤ e.start ∧
          e.start ≤ e.stop := by
      intro e he
      obtain ⟨t, ht, rfl⟩ := mem_map.1 (mem_of_head? he)
      have := tagsFrom_bounds t (mem_of_mem_filter ht)
      exact ⟨Nat.le_of_lt this.1, this.2.1⟩
    rw [tagsFrom, map_cons, written_cons, written_cons, ← ih (pos + p.written.length)]
    cases asks : s.asks (readTag (pos + p.text.length) p.inner) with
    | false =>
      rw [filter_cons_of_neg (by simp [asks]), Part.repair_of_quiet asks]
      exact substitute_append _ _ _ _ later
    | true =>
      obtain ⟨before, name, behind, more, h⟩ := exists_nameAt p.inner
      obtain ⟨hname, hrange, -⟩ := h.readTag_eq (pos + p.text.length)
      have length := h.length_eq
      have old : p.written ++ written parts rest = (p.text ++ '<' :: before) ++
          (name ++ ((behind ++ more ++ ['>']) ++ written parts rest)) := by
        rw [Part.written, h.split]
        simp
      have new : (p.repair s).written = (p.text ++ '<' :: before) ++
          ((name ++ ['=']) ++ (behind ++ more ++ ['>'])) := by
        obtain ⟨text, inner⟩ := Part.repair_of_asks asks
        rw [Part.written, text, inner, h.opened_eq]
        simp
      have stop : ((readTag (pos + p.text.length) p.inner).edit file value).stop +
          (behind ++ more ++ ['>']).length = pos + p.written.length := by
        simp only [Tag.edit, hrange, length_written, length_append, length_cons, length_nil]
        omega
      rw [filter_cons_of_pos asks, map_cons, old, new, substitute_cons,
        substitute_append _ _ _ _ (by rwa [stop]), stop]
      · simp [Tag.edit, hname]
      · simp only [Tag.edit, hrange, length_append, length_cons]
        omega
      · simp [Tag.edit, hrange]

/-! ## The whole text -/

theorem addressable_of_head {pre post : List Char} {c : Char} (h : post.head? = some c)
    (hc : isBlank c = false) : Addressable pre post := by
  obtain ⟨cs, rfl⟩ := head?_eq_some_iff.1 h
  have hn : c ≠ '\n' := by
    rintro rfl
    exact absurd hc (by decide)
  refine Or.inr ⟨c, ?_, ?_⟩
  · rw [takeWhile_cons_of_pos (by simpa using hn)]
    exact mem_cons_self
  · rintro rfl
    exact absurd hc (by decide)

/-- Both ends of the name of a tag have an address. -/
theorem NameAt.addressable {more : List Char} (h : NameAt inner before name behind more)
    (front back : List Char) :
    Addressable front (name ++ (behind ++ (more ++ '>' :: back))) ∧
      Addressable (front ++ name) (behind ++ (more ++ '>' :: back)) := by
  cases hname : name.getLast? with
  | none =>
    obtain rfl := getLast?_eq_none_iff.1 hname
    have sign : ∃ c, (more ++ '>' :: back).head? = some c ∧ isBlank c = false := by
      rcases h.arguments with rfl | ⟨rest, rfl⟩
      · exact ⟨'>', rfl, by decide⟩
      · exact ⟨'=', rfl, by decide⟩
    obtain ⟨c, head, hc⟩ := sign
    rw [h.empty rfl]
    exact ⟨addressable_of_head head hc, addressable_of_head head hc⟩
  | some last =>
    obtain ⟨c, cs, rfl⟩ : ∃ c cs, name = c :: cs := by
      apply exists_cons_of_ne_nil
      rintro rfl
      simp at hname
    refine ⟨addressable_of_head rfl (h.first c rfl), Or.inl ?_⟩
    have solid := h.last last hname
    rw [getLast?_append, hname]
    intro e
    rw [Option.some.inj e] at solid
    exact absurd solid (by decide)

/-- The name of a tag is found again by its place. -/
theorem locate_edit (file : String) {t : Tag} (ht : t ∈ tags value) :
    Edit.locate value.toList (t.edit file value.toList).correction =
      .ok (t.edit file value.toList) := by
  obtain ⟨front, inner, back, split, rfl⟩ := mem_segmentsFrom (mem_tags.1 ht)
  obtain ⟨before, name, behind, more, h⟩ := exists_nameAt inner
  obtain ⟨-, hrange, -⟩ := h.readTag_eq (0 + front.length)
  have whole : (front ++ '<' :: before) ++ (name ++ (behind ++ (more ++ '>' :: back))) =
      value.toList := by
    rw [split, h.split]
    simp
  have start : 0 + front.length + 1 + before.length = (front ++ '<' :: before).length := by
    simp only [length_append, length_cons]
    omega
  rw [start] at hrange
  obtain ⟨opening, closing⟩ := h.addressable (front ++ '<' :: before) back
  have first := spot_append whole opening
  have last := spot_append ((append_assoc _ _ _).trans whole) closing
  rw [length_append] at last
  have span := CharRange.toSpan_eq (r := (readTag (0 + front.length) inner).nameRange)
    (by rw [hrange]; exact Nat.le_add_right _ _) value.toList ⟨1, 0⟩
  rw [hrange, ← first.place, ← last.place] at span
  unfold Tag.edit
  rw [hrange, span]
  refine Edit.locate_eq_ok (isOrdered_iff.2 ?_) first.index?_eq last.index?_eq
  rw [Position.after_append ⟨1, 0⟩ (front ++ '<' :: before) name]
  exact Position.le_after _ _

/-- The issues of a text in which only equals signs lack. -/
theorem check_style (only : ∀ i ∈ check s value, i.code = .zeroArgumentStyle) :
    check s value = ((tags value).filter s.asks).map styleIssue := by
  rw [check_eq_flatMap] at only ⊢
  generalize tags value = ts at only ⊢
  induction ts with
  | nil => rfl
  | cons t ts ih =>
    rw [flatMap_cons] at only ⊢
    obtain ⟨first, rest⟩ := forall_mem_append.1 only
    rw [ih rest]
    rcases asked_of_style first with none | asked
    · rw [filter_cons_of_neg (by simp [Checker.asks, none]), none, nil_append]
    · rw [filter_cons_of_pos (by simp [Checker.asks, asked.issues]), asked.issues]
      rfl

/-- All equals signs are put in. -/
theorem applyAll_style (file : String) (tagless : Tagless rest)
    (e : written parts rest = value.toList) :
    Correction.applyAll value
        ((((tags value).filter s.asks).map (Tag.edit file value.toList)).map (·.correction)) =
      .ok ⟨String.ofList (written (parts.map (·.repair s)) rest),
        ((tags value).filter s.asks).length, []⟩ := by
  have whole := tags_eq tagless e
  have located : ∀ edit ∈ ((tags value).filter s.asks).map (Tag.edit file value.toList),
      Edit.locate value.toList edit.correction = .ok edit :=
    forall_mem_map.2 fun t ht => locate_edit file (mem_of_mem_filter ht)
  rw [applyAll_ascending (mapM_locate located) ?_ ?_, length_map, ← e, whole, substitute_written]
  · refine forall_mem_map.2 fun t ht => ?_
    have inside := tagsFrom_bounds t (whole ▸ mem_of_mem_filter ht)
    have length := congrArg List.length e
    rw [written, length_append] at length
    exact ⟨inside.2.1, by simp only [Tag.edit]; omega⟩
  · rw [pairwise_map, whole]
    exact (tagsFrom_apart parts 0).filter _

/-- A text in which nothing but equals signs behind the names of tags is asked for. They can all be
put in, and then what there is to say is that the command tags among these have no command. So
nothing is left just if no command tag was asked for one. -/
theorem style_fix_leaves (s : Checker) (formulas : FormulaSchema) (options : Options)
    (file context : String) {value : String}
    (only : ∀ i ∈ check s value, i.code = .zeroArgumentStyle) :
    ∃ fixed, Correction.applyAll value ((check s value).flatMap fun i =>
        (i.inFile formulas options value ⟨1, 0⟩ file context).corrections) =
          .ok ⟨fixed, (check s value).length, []⟩ ∧
      (check s fixed).map (fun i => (i.code, i.text)) =
        ((tags value).filter s.losesCommand).map missingCommand ∧
      (check s fixed = [] ↔ ∀ tag ∈ tags value, s.takesCommand tag = true →
        tagIssues s tag = []) := by
  obtain ⟨parts, rest, tagless, e⟩ := exists_parts value.toList
  have whole := tags_eq tagless e
  have corrections : ((check s value).flatMap fun i =>
      (i.inFile formulas options value ⟨1, 0⟩ file context).corrections) =
        (((tags value).filter s.asks).map (Tag.edit file value.toList)).map (·.correction) := by
    rw [check_style only, flatMap_map, map_map, map_eq_flatMap]
    rfl
  have each : ∀ t ∈ tagsFrom 0 parts, ∀ i ∈ tagIssues s t, i.code = .zeroArgumentStyle := by
    intro t ht i hi
    apply only
    rw [check_eq_flatMap, whole]
    exact mem_flatMap_of_mem ht hi
  have left := tagsFrom_repair each 0
  rw [← tags_written _ tagless, ← check_eq_flatMap, ← whole] at left
  refine ⟨_, ?_, left, ?_⟩
  · rw [corrections, applyAll_style file tagless e, check_style only, length_map]
  · rw [← map_eq_nil_iff, left, map_eq_nil_iff, filter_eq_nil_iff]
    refine forall₂_congr fun t _ => ?_
    cases command : s.takesCommand t <;> simp [Checker.losesCommand, Checker.asks, command]

/-- A check with a plain tag, the command tag and two commands, of which one takes a text. -/
def commandChecker : Checker where
  operators := .empty
  schema :=
    { tags := TagSpec.table [⟨"br", [], [], []⟩, ⟨"command", [], [⟨"name", false⟩], []⟩]
      commands := TagSpec.table [⟨"rest", [], [], []⟩, ⟨"say", [], [⟨"text", false⟩], []⟩] }
  limit := 3
  styleHints := true

/-- Two plain tags, one of them with blanks around its name, and a command with its text. -/
theorem style_fix_leaves_nothing :
    (∀ i ∈ check commandChecker "a < br >\n<BR> <command=say=hi>",
        i.code = .zeroArgumentStyle) ∧
      ∃ fixed, Correction.applyAll "a < br >\n<BR> <command=say=hi>"
          ((check commandChecker "a < br >\n<BR> <command=say=hi>").flatMap fun i =>
            (i.inFile ⟨none, .empty⟩ {} "a < br >\n<BR> <command=say=hi>" ⟨1, 0⟩ "f"
              "A.k").corrections) = .ok ⟨fixed, 2, []⟩ ∧
        check commandChecker fixed = [] := by
  have only : ∀ i ∈ check commandChecker "a < br >\n<BR> <command=say=hi>",
      i.code = .zeroArgumentStyle := by
    decide +kernel
  have two : (check commandChecker "a < br >\n<BR> <command=say=hi>").length = 2 := by
    decide +kernel
  obtain ⟨fixed, made, -, clean⟩ :=
    style_fix_leaves commandChecker ⟨none, .empty⟩ {} "f" "A.k" only
  refine ⟨only, fixed, two ▸ made, clean.2 ?_⟩
  decide +kernel

/-- The equals sign behind the name of the command tag takes the place of the command. -/
theorem style_fix_loses_command :
    (∀ i ∈ check commandChecker "<command=rest>", i.code = .zeroArgumentStyle) ∧
      Correction.applyAll "<command=rest>"
          ((check commandChecker "<command=rest>").flatMap fun i =>
            (i.inFile ⟨none, .empty⟩ {} "<command=rest>" ⟨1, 0⟩ "f" "A.k").corrections) =
        .ok ⟨"<command==rest>", 1, []⟩ ∧
      (check commandChecker "<command==rest>").map (·.text) =
        ["Tag 'command' expects a command name"] := by
  decide +kernel

end ModCheck.RichText
