import ModCheck.Proofs.Lexemes

/-
  Scanning line by line. A line break is a lexeme of its own in every mode and takes the scanner
  back to the start, so that the lexemes of two texts with a line break between them are those of
  the one and those of the other (`lexemes_append_break`). The break must not change under the
  first text: a line feed behind a carriage return would join it, and a carriage return at the end
  of a text is a blank or belongs to a comment (`lexemes_append_return`).
-/

namespace ModCheck

open List
open Text (isBlank)

variable {cs nl rest x : List Char} {ls : List Lexeme} {mode : ScanMode}

/-! ## Parts of a scan -/

/-- Lexemes that the scanner cuts off before the text `rest`, and that leave it in mode `last`. -/
inductive Segment (rest : List Char) (last : ScanMode) : ScanMode → List Lexeme → Prop
  | nil : Segment rest last last []
  | cons {mode : ScanMode} {l : Lexeme} {ls : List Lexeme} (formed : l.Formed mode)
      (ends : l.Ends mode (spell ls ++ rest)) (tail : Segment rest last (mode.after l.kind) ls) :
      Segment rest last mode (l :: ls)

theorem lexed_append {ms : List Lexeme} (hm : ms ≠ []) :
    Lexed mode (ls ++ ms) ↔ ∃ last, Segment (spell ms) last mode ls ∧ Lexed last ms := by
  induction ls generalizing mode with
  | nil =>
    constructor
    · intro h
      exact ⟨mode, .nil, h⟩
    · rintro ⟨last, h, h'⟩
      cases h
      exact h'
  | cons l ls ih =>
    constructor
    · intro h
      generalize e : l :: ls ++ ms = ns at h
      cases h with
      | stop =>
        obtain ⟨-, e⟩ := cons_eq_cons.1 e
        exact absurd (append_eq_nil_iff.1 e).2 hm
      | cons formed ends rest =>
        obtain ⟨rfl, rfl⟩ := cons_eq_cons.1 e
        obtain ⟨last, tail, h⟩ := ih.1 rest
        exact ⟨last, .cons formed (by rwa [← spell_append]) tail, h⟩
    · rintro ⟨last, h, h'⟩
      cases h with
      | cons formed ends tail =>
        rw [← spell_append] at ends
        exact .cons formed ends (ih.2 ⟨last, tail, h'⟩)

/-- The last lexeme is the end of the text, with the blanks before it. -/
theorem Lexed.eq_append (h : Lexed mode ls) :
    ∃ init gap, ls = init ++ [⟨gap, .endOfFile, []⟩] ∧ splitGap gap = (gap, []) := by
  induction h with
  | @stop mode gap h => exact ⟨[], gap, rfl, h⟩
  | @cons mode l ls formed ends rest ih =>
    obtain ⟨init, gap, rfl, hgap⟩ := ih
    exact ⟨l :: init, gap, rfl, hgap⟩

/-- A text is scanned into lexemes and the blanks behind them. -/
theorem exists_segment (mode : ScanMode) (cs : List Char) :
    ∃ init gap last, lexemes mode cs = init ++ [⟨gap, .endOfFile, []⟩] ∧
      splitGap gap = (gap, []) ∧ spell init ++ gap = cs ∧ Segment gap last mode init := by
  obtain ⟨lexed, spelled⟩ := lexed_lexemes mode cs
  obtain ⟨init, gap, e, hgap⟩ := lexed.eq_append
  rw [e] at lexed spelled
  obtain ⟨last, before, -⟩ := (lexed_append (cons_ne_nil _ _)).1 lexed
  exact ⟨init, gap, last, e, hgap, by simpa [spell_append] using spelled, by simpa using before⟩

/-! ## Text put behind a scan -/

/-- A text that no name, word or value goes on into. -/
structure Halts (x : List Char) : Prop where
  value : (splitValue x).1 = []
  word : (splitWord x).1 = []
  dash : x.head? ≠ some '-'

theorem Halts.head_not_isWordChar (h : Halts x) : x.head?.any Token.isWordChar = false := by
  cases x with
  | nil => rfl
  | cons c cs => simpa using head_not_isWordChar_of_stop h.value

theorem splitWord_of_isDelimiter {c : Char} (h : isDelimiter c = true) (rest : List Char) :
    (splitWord (c :: rest)).1 = [] := by
  rw [splitWord, if_pos (by simp [h])]

theorem halts_break (rest : List Char) : Halts ('\n' :: rest) where
  value := splitValue_cons_eq_nil.2 (Or.inr (Or.inr (Or.inl rfl)))
  word := splitWord_of_isDelimiter (by decide) rest
  dash := by simp

theorem halts_return (h : rest = [] ∨ rest.head? = some '\n') :
    Halts ('\r' :: rest) where
  value := by
    apply splitValue_cons_eq_nil.2
    rcases h with rfl | h
    · exact Or.inr (Or.inr (Or.inr ⟨by decide, Or.inr rfl⟩))
    · exact Or.inr (Or.inr (Or.inl (by simp [isLineEnd, h])))
  word := splitWord_of_isDelimiter (by decide) rest
  dash := by simp

theorem halts_semicolon (rest : List Char) : Halts (';' :: rest) where
  value := splitValue_cons_eq_nil.2 (Or.inl rfl)
  word := splitWord_of_isDelimiter (by decide) rest
  dash := by simp

theorem assigns_append (h : assigns rest = true) (x : List Char) : assigns (rest ++ x) = true := by
  have hne : (rest.dropWhile isLineBlank).isEmpty = false := by
    cases e : rest.dropWhile isLineBlank with
    | nil => simp [assigns, e] at h
    | cons => rfl
  rw [assigns, dropWhile_append, hne, if_neg (by decide), head?_append_of_ne_nil]
  · exact h
  · intro e
    simp [e] at hne

/-- Where a lexeme stops is seen from the first character behind it and the next one; for names and
values inside a value, from what starts there. -/
theorem Lexeme.Ends.of_cons {l : Lexeme} {c : Char} {cs ds : List Char} (h : l.Ends mode (c :: cs))
    (line : l.kind = .comment → isLineEnd c cs = true → isLineEnd c ds = true)
    (dash : c = '-' → cs.head? = some '-' → ds.head? = some '-')
    (sign : mode = .inValue → assigns (c :: cs) = true → assigns (c :: ds) = true)
    (value : mode = .inValue → (splitValue (c :: cs)).1 = [] → (splitValue (c :: ds)).1 = []) :
    l.Ends mode (c :: ds) := by
  obtain ⟨gap, kind, text⟩ := l
  cases kind <;> simp only [Lexeme.Ends] at h ⊢
  case identifier => exact ⟨h.1, fun hm => sign hm (h.2 hm)⟩
  case comment => exact ⟨splitLine_cons_eq_nil.2 (line rfl (splitLine_cons_eq_nil.1 h.1)), h.2⟩
  case value =>
    cases mode with
    | inValue => exact value rfl h
    | normal =>
      refine ⟨splitWord_cons_eq_nil.2 ((splitWord_cons_eq_nil.1 h.1).imp_right ?_), h.2⟩
      exact fun e => ⟨e.1, dash e.1 e.2⟩

/-- A lexeme that stops before `rest` stops there when `x` is put behind it; a comment must have
reached the end of its line. -/
theorem Lexeme.Ends.append {l : Lexeme} (h : l.Ends mode rest) (hx : Halts x)
    (hc : l.kind = .comment → rest = [] → (splitLine x).1 = [])
    (seam : (l.text ++ rest).getLast? = some '\r' → x.head? ≠ some '\n') :
    l.Ends mode (rest ++ x) := by
  have seam' : rest.getLast? = some '\r' → x.head? ≠ some '\n' := fun e =>
    seam (by rw [getLast?_append, e]; rfl)
  cases rest with
  | nil =>
    rw [append_nil] at seam
    obtain ⟨gap, kind, text⟩ := l
    cases kind <;> simp only [Lexeme.Ends] at h ⊢
    case identifier => exact ⟨hx.head_not_isWordChar, fun hm => assigns_append (h.2 hm) x⟩
    case comment => exact ⟨hc rfl rfl, seam⟩
    case value =>
      cases mode with
      | inValue => exact hx.value
      | normal => exact ⟨hx.word, fun _ => hx.dash⟩
  | cons c cs =>
    rw [cons_append]
    refine h.of_cons (fun _ hl => ?_) (fun _ hd => ?_)
      (fun _ hs => assigns_append hs x) fun _ hv => ?_
    · rw [isLineEnd_append]
      · exact hl
      · rintro rfl rfl
        exact seam' rfl
    · rw [head?_append_of_ne_nil]
      · exact hd
      · rintro rfl
        simp at hd
    · rw [← cons_append, splitValue_append_stop hx.value seam', hv]

theorem Segment.text_ne {last : ScanMode} {l : Lexeme} (h : Segment rest last mode (l :: ls)) :
    l.text ≠ [] := by
  cases h with
  | cons formed => exact formed.2.text_ne.1

theorem Segment.append {last : ScanMode} (h : Segment rest last mode ls) (hx : Halts x)
    (hc : ∀ l, ls.getLast? = some l → l.kind = .comment → rest = [] → (splitLine x).1 = [])
    (seam : (spell ls ++ rest).getLast? = some '\r' → x.head? ≠ some '\n') :
    Segment (rest ++ x) last mode ls := by
  induction h with
  | nil => exact .nil
  | @cons mode l ls formed ends tail ih =>
    refine .cons formed ?_ (ih ?_ ?_)
    · rw [← append_assoc]
      refine ends.append hx ?_ ?_
      · intro hk hr
        obtain ⟨hls, hr⟩ := append_eq_nil_iff.1 hr
        cases ls with
        | nil => exact hc l rfl hk hr
        | cons m ms =>
          rw [spell_cons, append_eq_nil_iff, append_eq_nil_iff] at hls
          exact absurd hls.2.1 tail.text_ne
      · intro e
        apply seam
        rw [spell_cons, append_assoc, append_assoc, getLast?_append, e]
        rfl
    · intro m hm
      apply hc m
      rw [getLast?_cons_of_ne_nil, hm]
      rintro rfl
      simp at hm
    · intro e
      apply seam
      rw [spell_cons, ← append_assoc, append_assoc, getLast?_append, e]
      rfl

/-! ## Line breaks -/

theorem splitGap_append_of_gap {gap : List Char} (h : splitGap gap = (gap, [])) {ds : List Char}
    (seam : gap.getLast? = some '\r' → ds.head? ≠ some '\n') :
    splitGap (gap ++ ds) = (gap ++ (splitGap ds).1, (splitGap ds).2) := by
  induction gap with
  | nil => rfl
  | cons c cs ih =>
    obtain ⟨hcs, hc⟩ := seam_cons seam
    rw [splitGap] at h
    split at h
    · next hg =>
      have hs : splitGap cs = (cs, []) := by
        obtain ⟨h1, h2⟩ := Prod.mk.inj h
        exact Prod.ext (cons_eq_cons.1 h1).2 h2
      rw [cons_append, splitGap, isGap_append hc, if_pos hg, ih hs hcs]
      rfl
    · simp at h

/-- A text and a line break behind it: the break is `\n`, or `\r\n`, and stays one behind the
text. -/
def BreaksAfter (cs nl : List Char) : Prop :=
  nl = ['\n'] ∧ cs.getLast? ≠ some '\r' ∨ nl = ['\r', '\n']

theorem BreaksAfter.halts (h : BreaksAfter cs nl) (rest : List Char) : Halts (nl ++ rest) := by
  rcases h with ⟨rfl, -⟩ | rfl
  · exact halts_break rest
  · exact halts_return (Or.inr rfl)

theorem BreaksAfter.splitLine {cs nl : List Char} (h : BreaksAfter cs nl) (rest : List Char) :
    (splitLine (nl ++ rest)).1 = [] := by
  rcases h with ⟨rfl, -⟩ | rfl <;> rfl

theorem BreaksAfter.seam (h : BreaksAfter cs nl) (rest : List Char) (hr : cs.getLast? = some '\r') :
    (nl ++ rest).head? ≠ some '\n' := by
  rcases h with ⟨-, h⟩ | rfl
  · exact absurd hr h
  · simp

/-- A line break ends a line and nothing else: before it stand the lexemes of the first text,
after it those of the second. -/
theorem lexemes_append_break (h : BreaksAfter cs nl) (mode : ScanMode) (ds : List Char) :
    ∃ init gap, lexemes mode cs = init ++ [⟨gap, .endOfFile, []⟩] ∧
      lexemes mode (cs ++ (nl ++ ds)) = init ++ ⟨gap, .newline, nl⟩ :: lexemes .normal ds := by
  obtain ⟨init, gap, last, e, hgap, ecs, before⟩ := exists_segment mode cs
  obtain ⟨lexed', spelled'⟩ := lexed_lexemes .normal ds
  have seam : gap.getLast? = some '\r' → nl.head? ≠ some '\n' := fun hr => by
    simpa using h.seam [] (by rw [← ecs, getLast?_append, hr]; rfl)
  refine ⟨init, gap, e, lexemes_eq_iff.2 ⟨?_, ?_⟩⟩
  · refine (lexed_append (cons_ne_nil _ _)).2 ⟨last, ?_, .cons ⟨?_, ?_⟩ trivial lexed'⟩
    · rw [spell_cons, spelled']
      have := before.append (h.halts ds) (fun _ _ _ _ => h.splitLine ds) fun hr => h.seam ds (by
        simpa [ecs] using hr)
      simpa using this
    · rw [splitGap_append_of_gap hgap seam]
      rcases h with ⟨rfl, -⟩ | rfl
      · simp [splitGap, isGap, isLineBlank]
      · simp [splitGap, isGap, isLineBlank]
    · rcases h with ⟨rfl, -⟩ | rfl
      · exact Or.inl rfl
      · exact Or.inr rfl
  · rw [spell_append, spell_cons, spelled', ← ecs]
    simp

/-- A carriage return at the end of a text is a blank, unless a comment takes it in. -/
theorem lexemes_append_return (mode : ScanMode) (cs : List Char) :
    ∃ init gap, lexemes mode cs = init ++ [⟨gap, .endOfFile, []⟩] ∧
      (lexemes mode (cs ++ ['\r']) = init ++ [⟨gap ++ ['\r'], .endOfFile, []⟩] ∨
        ∃ before l, init = before ++ [l] ∧ l.kind = .comment ∧
          lexemes mode (cs ++ ['\r']) =
            before ++ [⟨l.gap, .comment, l.text ++ ['\r']⟩, ⟨[], .endOfFile, []⟩]) := by
  obtain ⟨init, gap, last, e, hgap, ecs, seg⟩ := exists_segment mode cs
  have hx : Halts ['\r'] := halts_return (Or.inl rfl)
  refine ⟨init, gap, e, ?_⟩
  -- the carriage return joins the blanks at the end, unless a comment runs up to it
  by_cases hc : gap = [] ∧ ∃ l, init.getLast? = some l ∧ l.kind = .comment
  · obtain ⟨rfl, l, hl, hk⟩ := hc
    obtain ⟨before, rfl⟩ := getLast?_eq_some_iff.1 hl
    refine Or.inr ⟨before, l, rfl, hk, lexemes_eq_iff.2 ⟨?_, ?_⟩⟩
    · have lexed := (lexed_lexemes mode cs).1
      rw [e, append_assoc] at lexed
      obtain ⟨last, seg, here⟩ := (lexed_append (by simp)).1 lexed
      have hne : l.text ≠ [] := by
        cases here with
        | cons formed => exact formed.2.text_ne.1
      refine (lexed_append (by simp)).2 ⟨last, ?_, ?_⟩
      · have := seg.append hx (fun _ _ _ hr => by simp [hne] at hr) fun _ => by simp
        simpa using this
      · cases here with
        | cons formed ends rest =>
          obtain ⟨gap, kind, text⟩ := l
          obtain rfl : kind = .comment := hk
          obtain ⟨hsplit, ⟨ds, rfl, hds⟩, rfl⟩ := formed
          refine .cons ⟨?_, ⟨ds ++ ['\r'], rfl, ?_⟩, rfl⟩ ⟨rfl, by simp⟩ (.stop rfl)
          · exact (splitGap_append_iff gap ('-' :: '-' :: ds) ['\r'] (by simp) (by simp)).2 hsplit
          · rw [splitLine_eq] at hds ⊢
            rw [splitWhere_append_all hds fun a _ => endsLine_seam fun _ => by simp]
            rfl
    · simp [spell_append] at ecs ⊢
      rw [← ecs]
      simp
  · refine Or.inl (lexemes_eq_iff.2 ⟨?_, ?_⟩)
    · refine (lexed_append (cons_ne_nil _ _)).2 ⟨last, ?_, .stop ?_⟩
      · have := seg.append hx (fun l hl hk hr => absurd ⟨by simpa using hr, l, hl, hk⟩ hc)
        simpa using this
      · rw [splitGap_append_of_gap hgap fun _ => by simp]
        rfl
    · simp [spell_append, ← ecs]

end ModCheck
