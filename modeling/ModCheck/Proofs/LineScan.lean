import Mathlib.Data.List.DropRight
import ModCheck.Proofs.WholeValues

/-
  Scanning one line of a value. Behind a line break the scanner is outside a value again. A plain
  line (`isPlainLine`) starts no comment and no property there: before its first equals sign stands
  no name, and what follows the sign is one value as long as it holds no property
  (`lexed_plain_line`).
-/

namespace ModCheck

open List
open Text (isBlank)

variable {c : Char} {cs gap names : List Char} {l : Lexeme}

/-! ## Plain lines -/

/-- Whether two hyphens stand in a text. -/
def holdsDashes : List Char → Bool
  | [] => false
  | c :: cs => (c == '-' && cs.head? == some '-') || holdsDashes cs

/-- Whether a text is names only, one right behind the other: the first character starts a name,
and the others are part of one or start the next. -/
def isNames : List Char → Bool
  | [] => false
  | c :: cs => Token.isWordStart c && cs.all fun c => Token.isWordStart c || Token.isWordChar c

/-- Whether names are all that stands behind the last delimiter of a text, blanks at its end
aside. -/
def endsWithName (cs : List Char) : Bool :=
  isNames ((cs.rdropWhile isBlank).rtakeWhile fun c => !isDelimiter c)

/-- A line without two hyphens before its first equals sign, and without a name right before it. -/
def isPlainLine (cs : List Char) : Bool :=
  !holdsDashes (cs.takeWhile (· != '=')) &&
    (!cs.contains '=' || !endsWithName (cs.takeWhile (· != '=')))

theorem holdsDashes_of_append {ds : List Char} (h : holdsDashes (cs ++ ds) = false) :
    holdsDashes cs = false ∧ holdsDashes ds = false := by
  induction cs with
  | nil => exact ⟨rfl, h⟩
  | cons c cs ih =>
    rw [cons_append, holdsDashes, Bool.or_eq_false_iff] at h
    refine ⟨?_, (ih h.2).2⟩
    rw [holdsDashes, Bool.or_eq_false_iff]
    refine ⟨?_, (ih h.2).1⟩
    cases cs with
    | nil => simp
    | cons d cs => exact h.1

theorem isDelimiter_iff : isDelimiter c = true ↔ isBlank c = true ∨ c ∈ ['[', ']', '=', ';'] := by
  simp [isDelimiter, or_assoc]

theorem not_isWordChar_of_isDelimiter (h : isDelimiter c = true) : Token.isWordChar c = false := by
  rcases isDelimiter_iff.1 h with h | h
  · exact not_isWordChar_of_isBlank h
  · apply isWordChar_eq_false
    simp only [mem_cons] at h ⊢
    tauto

theorem not_isWordStart_of_isDelimiter (h : isDelimiter c = true) :
    Token.isWordStart c = false := by
  rcases isDelimiter_iff.1 h with h | h
  · exact not_isWordStart_of_isBlank h
  · simp only [mem_cons, not_mem_nil, or_false] at h
    rcases h with rfl | rfl | rfl | rfl <;> decide

theorem not_isDelimiter_of_isNames (h : isNames names = true) :
    ∀ c ∈ names, isDelimiter c = false := by
  intro c hc
  by_contra hd
  rw [Bool.not_eq_false] at hd
  cases names with
  | nil => simp at hc
  | cons d ds =>
    simp only [isNames, Bool.and_eq_true, all_eq_true, Bool.or_eq_true] at h
    have hpart : Token.isWordStart c = true ∨ Token.isWordChar c = true := by
      rcases mem_cons.1 hc with rfl | hc
      · exact Or.inl h.1
      · exact h.2 c hc
    rw [not_isWordStart_of_isDelimiter hd, not_isWordChar_of_isDelimiter hd] at hpart
    simp at hpart

theorem endsWithName_append {before : List Char}
    (hbefore : ∀ c, before.getLast? = some c → isDelimiter c = true) (hnames : isNames names = true)
    (hgap : ∀ c ∈ gap, isBlank c = true) : endsWithName (before ++ names ++ gap) = true := by
  have plain := not_isDelimiter_of_isNames hnames
  have hdrop : (before ++ names ++ gap).rdropWhile isBlank = before ++ names := by
    have hne : names ≠ [] := by
      rintro rfl
      exact absurd hnames (by decide)
    rw [List.rdropWhile, reverse_append, dropWhile_append_of_pos (by simpa using hgap),
      ← List.rdropWhile, rdropWhile_eq_self_iff]
    intro hne'
    rw [getLast_append_of_ne_nil hne' hne]
    intro hblank
    have := plain _ (getLast_mem hne)
    rw [isDelimiter_iff.2 (Or.inl hblank)] at this
    exact absurd this (by decide)
  have htake : (before ++ names).rtakeWhile (fun c => !isDelimiter c) = names := by
    rw [List.rtakeWhile, reverse_append, takeWhile_append_of_pos (by simpa using plain)]
    cases hb : before.reverse with
    | nil => simp
    | cons c cs =>
      have hc := hbefore c (by rw [getLast?_eq_head?_reverse, hb]; rfl)
      simp [hc]
  rw [endsWithName, hdrop, htake, hnames]

theorem IsName.isNames {name : List Char} (h : IsName name) : isNames name = true := by
  cases name with
  | nil => exact h.elim
  | cons c cs =>
    simp only [ModCheck.isNames, Bool.and_eq_true, all_eq_true, Bool.or_eq_true]
    exact ⟨h.1, fun d hd => Or.inr (h.2 d hd)⟩

theorem IsName.isNames_append {name : List Char} (h : IsName name)
    (hnames : ModCheck.isNames names = true) : ModCheck.isNames (name ++ names) = true := by
  have hname := h.isNames
  cases name with
  | nil => exact h.elim
  | cons c cs =>
    cases names with
    | nil => exact absurd hnames (by decide)
    | cons d ds =>
      simp only [ModCheck.isNames, cons_append, all_append, all_cons,
        Bool.and_eq_true, Bool.or_eq_true] at hname hnames ⊢
      exact ⟨hname.1, hname.2, Or.inl hnames.1, hnames.2⟩

/-- A text with no sign in it, and no comment. -/
def Signless (cs : List Char) : Prop :=
  (∀ c ∈ cs, c ∉ ['\n', ';', '[', '=']) ∧ holdsDashes cs = false

theorem Signless.of_append {ds : List Char} (h : Signless (cs ++ ds)) :
    Signless cs ∧ Signless ds := by
  obtain ⟨chars, dashes⟩ := h
  obtain ⟨dashes, dashes'⟩ := holdsDashes_of_append dashes
  exact ⟨⟨fun c hc => chars c (mem_append_left _ hc), dashes⟩,
    ⟨fun c hc => chars c (mem_append_right _ hc), dashes'⟩⟩

/-! ## Words -/

/-- The kinds of token that a line has outside a value, equals signs aside. -/
def TokenKind.isWord : TokenKind → Bool
  | .identifier => true
  | .value => true
  | .rightBracket => true
  | _ => false

/-- A text that no name and no word goes on into. -/
def Bounds (x : List Char) : Prop :=
  ∀ c, x.head? = some c → isDelimiter c = true

/-- A word that a text ends is ended by any other text that ends words, more words between or
not. -/
theorem Lexeme.Ends.bounded {rest y x : List Char} (h : l.Ends .normal (rest ++ y))
    (hl : l.kind.isWord = true) (hy : Bounds y) (hx : Bounds x) : l.Ends .normal (rest ++ x) := by
  obtain ⟨gap, kind, text⟩ := l
  cases rest with
  | nil =>
    have hword : x.head?.any Token.isWordChar = false := by
      cases hc : x.head? with
      | none => rfl
      | some c => exact not_isWordChar_of_isDelimiter (hx c hc)
    cases kind <;> simp only [TokenKind.isWord, Bool.false_eq_true] at hl
    case identifier => exact ⟨hword, nofun⟩
    case rightBracket => trivial
    case value =>
      cases x with
      | nil => exact ⟨rfl, fun _ => by simp⟩
      | cons c cs =>
        refine ⟨splitWord_of_isDelimiter (hx c rfl) cs, fun _ hc => ?_⟩
        have := hx '-' hc
        exact absurd this (by decide)
  | cons c cs =>
    refine h.of_cons (fun hk _ => ?_) (fun _ hd => ?_) nofun nofun
    · rw [hk] at hl
      exact absurd hl (by decide)
    · cases cs with
      | nil => exact absurd (hy '-' hd) (by decide)
      | cons d ds => exact hd

theorem Lexeme.Formed.isWord (h : l.Formed .normal) (signless : Signless l.text) :
    l.kind.isWord = true := by
  obtain ⟨chars, dashes⟩ := signless
  have form := h.2
  obtain ⟨gap, kind, text⟩ := l
  cases kind <;> simp only [Lexeme.HasForm] at form
  case newline =>
    rcases form with e | e <;> exact absurd (chars '\n' (by simp [e])) (by simp)
  case semicolon => exact absurd (chars ';' (by simp [form])) (by simp)
  case leftBracket => exact absurd (chars '[' (by simp [form])) (by simp)
  case equals => exact absurd (chars '=' (by simp [form.1])) (by simp)
  case comment =>
    obtain ⟨⟨cs, e, -⟩, -⟩ := form
    simp [e, holdsDashes] at dashes
  case rightBracket => rfl
  case identifier => rfl
  case value => rfl

theorem ScanMode.after_of_isWord {kind : TokenKind} (h : kind.isWord = true) :
    ScanMode.normal.after kind = .normal := by
  cases kind <;> simp_all [TokenKind.isWord, ScanMode.after]

section

variable {y : List Char} {last mode : ScanMode} {ls : List Lexeme} (h : Segment y last mode ls)
  (hmode : mode = .normal) (signless : Signless (spell ls))

include h hmode signless

/-- A text without signs is scanned into words, whatever follows that ends a word. -/
theorem Segment.words (hy : Bounds y) :
    (∀ l ∈ ls, l.kind.isWord = true) ∧ ∀ x, Bounds x → Segment x .normal .normal ls := by
  induction h with
  | nil =>
    exact ⟨by simp, fun x _ => .nil⟩
  | @cons mode l ls formed ends tail ih =>
    subst hmode
    rw [spell_cons] at signless
    obtain ⟨htext, hrest⟩ := signless.of_append.2.of_append
    have hl := formed.isWord htext
    obtain ⟨kinds, segments⟩ := ih (ScanMode.after_of_isWord hl) hrest
    refine ⟨forall_mem_cons.2 ⟨hl, kinds⟩, fun x hx => .cons formed ?_ ?_⟩
    · exact ends.bounded hl hy hx
    · rw [ScanMode.after_of_isWord hl]
      exact segments x hx

/-- Where the last word is a name, the text ends with names: nothing but a name can run on into
another. -/
theorem Segment.ends_with_names {m : Lexeme} (hm : ls.getLast? = some m)
    (hname : m.kind = .identifier) :
    ∃ before names, spell ls = before ++ names ∧
      (∀ c, before.getLast? = some c → isDelimiter c = true) ∧ isNames names = true := by
  induction h with
  | nil => simp at hm
  | @cons mode l ls formed ends tail ih =>
    subst hmode
    rw [spell_cons] at signless
    obtain ⟨htext, hrest⟩ := signless.of_append.2.of_append
    have hl := formed.isWord htext
    have hgap : ∀ c, l.gap.getLast? = some c → isDelimiter c = true := fun c hc =>
      isDelimiter_iff.2 (Or.inl (formed.gap_isBlank c (mem_of_getLast? hc)))
    have form := formed.2
    by_cases hls : ls = []
    · obtain rfl : l = m := by simpa [hls] using hm
      simp only [Lexeme.HasForm, hname] at form
      exact ⟨l.gap, l.text, by simp [hls], hgap, form.1.isNames⟩
    · rw [getLast?_cons_of_ne_nil hls] at hm
      obtain ⟨before, names, e, hbefore, hnames⟩ := ih (ScanMode.after_of_isWord hl) hrest hm
      by_cases hnil : before = []
      · rw [hnil] at e
        cases hk : l.kind <;> rw [hk] at hl <;>
          simp only [TokenKind.isWord, Bool.false_eq_true] at hl
        case identifier =>
          simp only [Lexeme.HasForm, hk] at form
          exact ⟨l.gap, l.text ++ names, by simp [e], hgap, form.1.isNames_append hnames⟩
        case rightBracket =>
          simp only [Lexeme.HasForm, hk] at form
          refine ⟨l.gap ++ [']'], names, by simp [e, form.1], fun c hc => ?_, hnames⟩
          obtain rfl : ']' = c := by simpa using hc
          decide
        case value =>
          -- a word would go on over the first character of the name
          simp only [Lexeme.Ends, hk, e] at ends
          cases names with
          | nil => exact absurd hnames (by decide)
          | cons c cs =>
            rcases splitWord_cons_eq_nil.1 ends.1 with hc | ⟨rfl, -⟩
            · rw [not_isDelimiter_of_isNames hnames c mem_cons_self] at hc
              exact absurd hc (by decide)
            · simp only [isNames, Bool.and_eq_true] at hnames
              exact absurd hnames.1 (by decide)
      · refine ⟨l.gap ++ l.text ++ before, names, by simp [e], fun c hc => hbefore c ?_, hnames⟩
        rwa [getLast?_append_of_ne_nil _ hnil] at hc

end

/-! ## What follows on the line -/

/-- Line breaks and semicolons are scanned alike in a value and outside. -/
theorem Lexed.any_mode {mode : ScanMode} {ls : List Lexeme} (h : Lexed mode (l :: ls))
    (hl : l.kind = .newline ∨ l.kind = .semicolon) (mode' : ScanMode) : Lexed mode' (l :: ls) := by
  obtain ⟨⟨hgap, form⟩, -, rest⟩ := h.of_cons (Or.inl (by rcases hl with hl | hl <;> simp [hl]))
  have hform : l.HasForm mode' := by
    rcases hl with hl | hl <;> simpa [Lexeme.HasForm, hl] using form
  have hafter : mode'.after l.kind = mode.after l.kind := by
    rcases hl with hl | hl <;> rw [hl] <;> rfl
  refine .cons ⟨hgap, hform⟩ ?_ (by rwa [hafter])
  rcases hl with hl | hl <;> simp [Lexeme.Ends, hl]

theorem splitValue_of_gap (hgap : splitGap (gap ++ cs) = (gap, cs)) (hcs : (splitValue cs).1 = []) :
    (splitValue (gap ++ cs)).1 = [] := by
  induction gap with
  | nil => exact hcs
  | cons c gap ih =>
    rw [cons_append, splitGap] at hgap
    split at hgap
    · next hc =>
      obtain ⟨e₁, e₂⟩ := Prod.mk.inj hgap
      have hmore : splitGap (gap ++ cs) = (gap, cs) := Prod.ext (cons_eq_cons.1 e₁).2 e₂
      exact splitValue_cons_eq_nil.2 (Or.inr (Or.inr (Or.inr ⟨hc, Or.inr (ih hmore)⟩)))
    · simp at hgap

/-- Before a line break or a semicolon, words and values end. -/
theorem Lexed.closes {mode : ScanMode} {ls : List Lexeme} (h : Lexed mode (l :: ls))
    (hl : l.kind = .newline ∨ l.kind = .semicolon) :
    Bounds (spell (l :: ls)) ∧ (splitValue (spell (l :: ls))).1 = [] := by
  obtain ⟨formed, -, -⟩ := h.of_cons (Or.inl (by rcases hl with hl | hl <;> simp [hl]))
  obtain ⟨hgap, form⟩ := formed
  obtain ⟨hne, hret⟩ := form.text_ne
  have hstart : Halts (l.text ++ spell ls) ∧ ∀ c, l.text.head? = some c → isDelimiter c = true := by
    rcases hl with hl | hl <;> simp only [Lexeme.HasForm, hl] at form
    · rcases form with e | e
      · rw [e]
        exact ⟨halts_break _, fun c hc => by rw [← Option.some.inj hc]; decide⟩
      · rw [e]
        exact ⟨halts_return (Or.inr rfl), fun c hc => by rw [← Option.some.inj hc]; decide⟩
    · rw [form]
      exact ⟨halts_semicolon _, fun c hc => by rw [← Option.some.inj hc]; decide⟩
  rw [spell_cons]
  refine ⟨fun c hc => ?_, splitValue_of_gap ?_ hstart.1.value⟩
  · cases hg : l.gap with
    | nil =>
      rw [hg, nil_append, head?_append_of_ne_nil _ hne] at hc
      exact hstart.2 c hc
    | cons g gap =>
      rw [hg] at hc
      obtain rfl := Option.some.inj hc
      have hmem : g ∈ (splitGap (l.gap ++ l.text)).1 := by
        rw [hgap, hg]
        exact mem_cons_self
      exact isDelimiter_iff.2 (Or.inl (mem_splitGap hmem).1)
  · exact (splitGap_append_iff _ _ _ hne hret).2 hgap

/-! ## A line -/

theorem isBlank_of_splitGap (h : splitGap gap = (gap, [])) : ∀ c ∈ gap, isBlank c = true := by
  intro c hc
  have hmem : c ∈ (splitGap gap).1 := by rwa [h]
  exact (mem_splitGap hmem).1

theorem bounds_gap {x : List Char} (blank : ∀ c ∈ gap, isBlank c = true) (h : Bounds x) :
    Bounds (gap ++ x) := by
  cases gap with
  | nil => exact h
  | cons g gap =>
    intro c hc
    obtain rfl : g = c := Option.some.inj hc
    exact isDelimiter_iff.2 (Or.inl (blank g mem_cons_self))

/-- Nothing blank stands behind the last character of a line that is not blank. -/
theorem gap_eq_nil {words : List Char} (blank : ∀ c ∈ gap, isBlank c = true)
    (last : ∀ c, (words ++ gap).getLast? = some c → isBlank c = false) : gap = [] := by
  by_contra hne
  have hend := last (gap.getLast hne) (by
    rw [getLast?_append_of_ne_nil _ hne, getLast?_eq_some_getLast hne])
  rw [blank _ (getLast_mem hne)] at hend
  exact absurd hend (by decide)

/-- A text without signs is scanned into words, and blanks behind them. -/
theorem exists_words {line : List Char} (signless : Signless line) :
    ∃ front gap, spell front ++ gap = line ∧ splitGap gap = (gap, []) ∧
      (∀ m ∈ front, m.kind.isWord = true) ∧ (∀ x, Bounds x → Segment x .normal .normal front) ∧
      ∀ m, front.getLast? = some m → m.kind = .identifier → endsWithName line = true := by
  obtain ⟨front, gap, last, -, hgap, hline, before⟩ := exists_segment .normal line
  rw [← hline] at signless
  have hblank := isBlank_of_splitGap hgap
  have hbounds : Bounds gap := by
    have none : Bounds [] := fun c hc => absurd hc (by simp)
    simpa using bounds_gap hblank none
  obtain ⟨kinds, segments⟩ := before.words rfl signless.of_append.1 hbounds
  refine ⟨front, gap, hline, hgap, kinds, segments, fun m hm hname => ?_⟩
  obtain ⟨pre, names, hspell, hpre, hnames⟩ :=
    before.ends_with_names rfl signless.of_append.1 hm hname
  rw [← hline, hspell]
  exact endsWithName_append hpre hnames hblank

section

variable {l : Lexeme} {ls : List Lexeme} (rest : Lexed .normal (l :: ls))
  (hl : l.kind = .newline ∨ l.kind = .semicolon)
include rest hl

/-- Behind an equals sign, what holds no property is one value. -/
theorem lexed_behind_equals {tail : List Char} (chars : ∀ c ∈ tail, c ∉ ['\n', ';', '['])
    (hlast : ∀ c, tail.getLast? = some c → isBlank c = false) (whole : holdsProperty tail = false) :
    ∃ vs, spell vs = tail ∧ (∀ v ∈ vs, v.kind = .value) ∧ Lexed .inValue (vs ++ l :: ls) := by
  have hsplit := splitGap_append tail
  cases hv : (splitGap tail).2 with
  | nil =>
    rw [hv, append_nil] at hsplit
    cases htail : tail with
    | nil => exact ⟨[], rfl, by simp, rest.any_mode hl _⟩
    | cons c cs =>
      have hne : tail ≠ [] := by simp [htail]
      have hmem : tail.getLast hne ∈ (splitGap tail).1 := by
        rw [hsplit]
        exact getLast_mem hne
      have hblank := hlast _ (getLast?_eq_some_getLast hne)
      rw [(mem_splitGap hmem).1] at hblank
      exact absurd hblank (by decide)
  | cons c cs =>
    generalize hg : (splitGap tail).1 = gap at hsplit
    rw [hv] at hsplit
    have hgap : splitGap (gap ++ c :: cs) = (gap, c :: cs) := by
      rw [hsplit]
      exact Prod.ext hg hv
    subst hsplit
    have plain : PlainValue (c :: cs) := by
      refine ⟨fun d hd => chars d (mem_append_right _ hd), fun d hd => ?_, fun d hd => ?_, ?_⟩
      · obtain rfl := Option.some.inj hd
        by_contra hblank
        rcases isGap_or_isLineEnd cs (Bool.not_eq_false _ ▸ hblank) with h | h
        · rw [Lexeme.splitGap_not_isGap hgap] at h
          exact absurd h (by decide)
        · simp only [isLineEnd, Bool.or_eq_true, Bool.and_eq_true, beq_iff_eq] at h
          have hbreak : '\n' ∈ c :: cs := by
            rcases h with h | h
            · simp [h]
            · exact mem_cons_of_mem _ (mem_of_mem_head? h.2)
          exact absurd (chars _ (mem_append_right _ hbreak)) (by simp)
      · apply hlast d
        rwa [getLast?_append_of_ne_nil _ (cons_ne_nil _ _)]
      · exact holdsProperty_suffix whole
    refine ⟨[⟨gap, .value, c :: cs⟩], by simp, by simp, .cons ⟨hgap, plain.isValue, ?_⟩ ?_ rest⟩
    · refine fun hne => startsProperty_of_gap (fun d hd => ?_) hne whole
      have hmem : d ∈ (splitGap (gap ++ c :: cs)).1 := by rwa [hgap]
      exact (mem_splitGap hmem).1
    · exact (rest.closes hl).2

/-- A plain line is scanned into words, and behind its first equals sign into one value. -/
theorem lexed_plain_line {line : List Char} (chars : ∀ c ∈ line, c ∉ ['\n', ';', '['])
    (hlast : ∀ c, line.getLast? = some c → isBlank c = false) (plain : isPlainLine line = true)
    (whole : holdsProperty line = false) :
    ∃ front tail, spell (front ++ tail) = line ∧ Lexed .normal (front ++ tail ++ l :: ls) ∧
      (∀ m ∈ front, m.kind.isWord = true) ∧
      (tail = [] ∨ (∀ m, front.getLast? = some m → m.kind ≠ .identifier) ∧
        ∃ e vs, tail = e :: vs ∧ e.kind = .equals ∧ ∀ v ∈ vs, v.kind = .value) := by
  obtain ⟨bounds, -⟩ := rest.closes hl
  simp only [isPlainLine, Bool.and_eq_true, Bool.not_eq_true', Bool.or_eq_true] at plain
  obtain ⟨dashes, hname⟩ := plain
  have hsplit := takeWhile_append_dropWhile (p := (· != '=')) (l := line)
  have hfront : Signless (line.takeWhile (· != '=')) := by
    refine ⟨fun c hc => ?_, dashes⟩
    have hsigns := chars c ((takeWhile_sublist _).mem hc)
    have hequals : c ≠ '=' := by simpa using mem_takeWhile_imp hc
    simp only [mem_cons, not_mem_nil, or_false, not_or] at hsigns ⊢
    exact ⟨hsigns.1, hsigns.2.1, hsigns.2.2, hequals⟩
  obtain ⟨front, gap, spelled, hgap, kinds, segments, hlastName⟩ := exists_words hfront
  have hblank := isBlank_of_splitGap hgap
  cases htail : line.dropWhile (· != '=') with
  | nil =>
    rw [htail, append_nil, ← spelled] at hsplit
    obtain rfl : gap = [] := gap_eq_nil hblank (hsplit ▸ hlast)
    refine ⟨front, [], by simpa using hsplit, ?_, kinds, Or.inl rfl⟩
    rw [append_nil]
    exact (lexed_append (cons_ne_nil _ _)).2 ⟨.normal, segments _ bounds, rest⟩
  | cons c tail =>
    obtain rfl : c = '=' := by
      have := head?_dropWhile_not (· != '=') line
      simpa [htail] using this
    rw [htail] at hsplit
    generalize line.takeWhile (· != '=') = words at hsplit hname spelled hlastName
    subst hsplit
    have hname : endsWithName words = false := hname.resolve_left (by simp)
    have htail : holdsProperty (words ++ ['='] ++ tail) = false := by simpa using whole
    obtain ⟨vs, hvs, values, lexed⟩ := lexed_behind_equals rest hl
      (fun c (hc : c ∈ tail) => chars c (by simp [hc]))
      (fun c hc => hlast c (by simp [getLast?_cons, hc])) (holdsProperty_suffix htail)
    have hspell : spell (⟨gap, .equals, ['=']⟩ :: (vs ++ l :: ls)) =
        gap ++ '=' :: (tail ++ spell (l :: ls)) := by
      rw [spell_cons, spell_append, hvs]
      simp
    have hequals : splitGap (gap ++ ['=']) = (gap, ['=']) := by
      rw [splitGap_append_of_gap hgap (by simp)]
      simp [splitGap_of_not_isBlank (c := '=') (by decide)]
    refine ⟨front, ⟨gap, .equals, ['=']⟩ :: vs, ?_, ?_, kinds,
      Or.inr ⟨fun m hm hk => ?_, _, vs, rfl, rfl, values⟩⟩
    · rw [spell_append, spell_cons, hvs, ← spelled]
      simp
    · rw [append_assoc, cons_append]
      refine (lexed_append (cons_ne_nil _ _)).2 ⟨.normal, segments _ ?_,
        .cons ⟨hequals, rfl, rfl⟩ trivial lexed⟩
      rw [hspell]
      exact bounds_gap hblank fun c hc => Option.some.inj hc ▸ by decide
    · rw [hlastName m hm hk] at hname
      exact absurd hname (by decide)

end

/-! ## Tokens of a line -/

/-- Words start no property, unless an equals sign follows a name. -/
theorem runs_words {ts rest : List Token} (kinds : ∀ t ∈ ts, t.kind.isWord = true)
    (hrest : ∀ t, ts.getLast? = some t → t.kind = .identifier →
      ∀ u, rest.head? = some u → u.kind ≠ .equals) : Runs ts rest := by
  induction ts with
  | nil => exact runs_nil rest
  | cons t ts ih =>
    have ht := kinds t mem_cons_self
    have hnext : t.kind = .identifier → ∀ u, (ts ++ rest).head? = some u → u.kind ≠ .equals := by
      intro hname u hu
      cases ts with
      | nil => exact hrest t rfl hname u hu
      | cons v ts =>
        obtain rfl := Option.some.inj hu
        have hword := kinds v (by simp)
        intro hk
        rw [hk] at hword
        exact absurd hword (by decide)
    refine ⟨?_, ?_, ?_, ih (fun u hu => kinds u (mem_cons_of_mem _ hu)) fun u hu => ?_⟩
    · intro hk
      rw [hk] at ht
      exact absurd ht (by decide)
    · intro hk
      rw [hk] at ht
      exact absurd ht (by decide)
    · cases hmore : ts ++ rest with
      | nil => rfl
      | cons u us =>
        rw [startsAssignment, Bool.and_eq_false_imp]
        intro hname
        have hne := hnext (by simpa using hname) u (by rw [hmore]; rfl)
        simpa using hne
    · apply hrest u
      rw [getLast?_cons, hu]
      rfl

/-- A plain line is scanned into tokens that a value goes on over. -/
theorem exists_plain_line {l : Lexeme} {ls : List Lexeme} (rest : Lexed .normal (l :: ls))
    (hl : l.kind = .newline ∨ l.kind = .semicolon) {line : List Char}
    (chars : ∀ c ∈ line, c ∉ ['\n', ';', '['])
    (hlast : ∀ c, line.getLast? = some c → isBlank c = false) (plain : isPlainLine line = true)
    (whole : holdsProperty line = false) :
    ∃ ms, spell ms = line ∧ Lexed .normal (ms ++ l :: ls) ∧
      (∀ m ∈ ms, m.kind.isSolid = true ∧ m.kind ≠ .leftBracket) ∧
      ∀ ts : List Token, ts.map Token.lexeme = ms →
        ∀ more, (∀ t, more.head? = some t → t.kind ≠ .equals) → Runs ts more := by
  obtain ⟨front, tail, spelled, lexed, kinds, htail⟩ :=
    lexed_plain_line rest hl chars hlast plain whole
  have hsolid (m : Lexeme) (hm : m.kind.isWord = true ∨ m.kind = .equals) :
      m.kind.isSolid = true ∧ m.kind ≠ .leftBracket := by
    revert hm
    cases m.kind <;> simp [TokenKind.isWord, TokenKind.isSolid]
  refine ⟨front ++ tail, spelled, lexed, fun m hm => hsolid m ?_, fun ts hts more hmore => ?_⟩
  · rcases mem_append.1 hm with hm | hm
    · exact Or.inl (kinds m hm)
    · rcases htail with rfl | ⟨-, e, vs, rfl, he, hvs⟩
      · simp at hm
      · rcases mem_cons.1 hm with rfl | hm
        · exact Or.inr he
        · refine Or.inl ?_
          rw [hvs m hm]
          rfl
  · obtain ⟨us, ws, rfl, rfl, rfl⟩ := map_eq_append_iff.1 hts
    have words : ∀ t ∈ us, t.kind.isWord = true := fun t ht =>
      kinds t.lexeme (mem_map_of_mem ht)
    rw [runs_append]
    rcases htail with hnil | ⟨hnone, e, vs, hcons, he, hvs⟩
    · rw [map_eq_nil_iff.1 hnil]
      exact ⟨runs_words words fun _ _ _ u hu => hmore u hu, runs_nil _⟩
    · obtain ⟨sign, values, rfl, rfl, rfl⟩ := map_eq_cons_iff.1 hcons
      have he : sign.kind = .equals := he
      have run : Runs values more := by
        refine runs_words (fun t ht => ?_) fun _ _ _ u hu => hmore u hu
        have hk : t.kind = .value := hvs t.lexeme (mem_map_of_mem ht)
        rw [hk]
        rfl
      refine ⟨runs_words words fun t ht hname => ?_, by simp [he], by simp [he],
        startsAssignment_of_ne (by simp [he]) _, run⟩
      exact absurd hname (hnone t.lexeme (by rw [getLast?_map, ht]; rfl))

end ModCheck
