import ModCheck.Proofs.Tiling
import ModCheck.Proofs.WholeValues

/-
  How far a value reaches. Behind an equals sign the scanner looks ahead over blanks, stops at some
  signs and gives the last blanks back. `LongestValue` says what comes of it without running it:
  nothing in the value ends a value, and what follows the value does. Main statement:
  `nextIn_value_iff`, the values that are scanned are exactly the longest ones.

  On later lines a value ends before tokens, a name and an equals sign, and not by looking ahead.
  The two tests agree but for carriage returns: those are blanks between tokens, and the look-ahead
  stops at them (`startsProperty_iff_startsAssignment`).
-/

namespace ModCheck

open List
open Text (isBlank)

variable {cs gap rest text : List Char} {l : Lexeme}

/-- A line break stands here. -/
def StartsBreak (cs : List Char) : Prop :=
  ['\n'] <+: cs ∨ ['\r', '\n'] <+: cs

/-- What ends a value behind the blanks `gap`: the end of the text or of the line, a sign, or
another property that the blanks set apart. -/
inductive EndsBehind (gap : List Char) : List Char → Prop
  | endOfFile : EndsBehind gap []
  | newline {cs : List Char} (h : StartsBreak cs) : EndsBehind gap cs
  | semicolon (cs : List Char) : EndsBehind gap (';' :: cs)
  | bracket (cs : List Char) : EndsBehind gap ('[' :: cs)
  | property {cs : List Char} (apart : gap ≠ []) (h : startsProperty cs = true) :
      EndsBehind gap cs

/-- A value with blanks before it, as far as it reaches when `rest` follows. -/
structure LongestValue (gap text rest : List Char) : Prop where
  blanks : ∀ c ∈ gap, isBlank c = true ∧ c ≠ '\n'
  apart : gap ≠ [] → startsProperty (text ++ rest) = false
  first : ∃ c, text.head? = some c ∧ isBlank c = false
  last : ∃ c, text.getLast? = some c ∧ isBlank c = false
  chars : ∀ c ∈ text, c ∉ ['\n', ';', '[']
  whole : ∀ before run behind, text = before ++ (run ++ behind) → run ≠ [] →
    (∀ c ∈ run, isBlank c = true) → startsProperty (behind ++ rest) = false
  stops : ∃ run behind, rest = run ++ behind ∧ (∀ c ∈ run, isBlank c = true ∧ c ≠ '\n') ∧
    EndsBehind run behind

/-! ## Where a value stops -/

theorem startsBreak_of_isLineEnd {c : Char} (h : isLineEnd c cs = true) :
    StartsBreak (c :: cs) := by
  simp only [isLineEnd, Bool.or_eq_true, Bool.and_eq_true, beq_iff_eq] at h
  rcases h with rfl | ⟨rfl, h⟩
  · exact Or.inl ⟨cs, rfl⟩
  · obtain ⟨ds, rfl⟩ := head?_eq_some_iff.1 h
    exact Or.inr ⟨ds, rfl⟩

theorem EndsBehind.mono {gap' : List Char} (h : EndsBehind gap cs) (more : gap ≠ [] → gap' ≠ []) :
    EndsBehind gap' cs := by
  cases h with
  | endOfFile => exact .endOfFile
  | newline h => exact .newline h
  | semicolon cs => exact .semicolon cs
  | bracket cs => exact .bracket cs
  | property apart h => exact .property (more apart) h

/-- Where no value starts, blanks come first and then what ends a value. -/
theorem endsBehind_of_splitValue (h : (splitValue cs).1 = []) :
    EndsBehind (splitGap cs).1 (splitGap cs).2 := by
  induction cs with
  | nil => exact .endOfFile
  | cons c cs ih =>
    have sign (hgap : isGap c cs = false) (hend : EndsBehind [] (c :: cs)) :
        EndsBehind (splitGap (c :: cs)).1 (splitGap (c :: cs)).2 := by
      rwa [splitGap, if_neg (by simp [hgap])]
    rcases splitValue_cons_eq_nil.1 h with rfl | rfl | hline | ⟨hgap, hmore⟩
    · exact sign rfl (.semicolon cs)
    · exact sign rfl (.bracket cs)
    · exact sign (isGap_eq_false_of_isLineEnd hline) (.newline (startsBreak_of_isLineEnd hline))
    · rw [splitGap, if_pos hgap]
      rcases hmore with hstart | hstop
      · exact .property (cons_ne_nil _ _) hstart
      · exact (ih hstop).mono fun _ => cons_ne_nil _ _

theorem splitGap_of_startsProperty (h : startsProperty cs = true) : splitGap cs = ([], cs) := by
  cases cs with
  | nil => rfl
  | cons c cs =>
    refine splitGap_of_not_isBlank ?_ cs
    by_contra hblank
    rw [startsProperty_of_isBlank (Bool.not_eq_false _ ▸ hblank) cs] at h
    exact absurd h (by decide)

/-- No value starts at blanks behind which one ends. -/
theorem splitValue_of_endsBehind (blanks : ∀ c ∈ gap, isBlank c = true ∧ c ≠ '\n')
    (h : EndsBehind gap cs) : (splitValue (gap ++ cs)).1 = [] := by
  induction gap with
  | nil =>
    cases h with
    | endOfFile => rfl
    | newline h =>
      rcases h with ⟨ds, rfl⟩ | ⟨ds, rfl⟩
      · exact (halts_break ds).value
      · exact (halts_return (Or.inr rfl)).value
    | semicolon cs => exact (halts_semicolon cs).value
    | bracket cs => exact splitValue_cons_eq_nil.2 (Or.inr (Or.inl rfl))
    | property apart h => exact absurd rfl apart
  | cons c gap ih =>
    have more (hmore : EndsBehind gap cs) : (splitValue (gap ++ cs)).1 = [] :=
      ih (fun d hd => blanks d (mem_cons_of_mem _ hd)) hmore
    rw [cons_append]
    refine splitValue_cons_eq_nil.2 (Or.inr (Or.inr ?_))
    rcases isGap_or_isLineEnd (gap ++ cs) (blanks c mem_cons_self).1 with hgap | hline
    · refine Or.inr ⟨hgap, ?_⟩
      by_cases hne : gap = []
      · -- behind the last blank the look-ahead sees the property itself
        cases h with
        | property _ h =>
          left
          rw [hne, nil_append, splitGap_of_startsProperty h]
          exact h
        | endOfFile => exact Or.inr (more .endOfFile)
        | newline h => exact Or.inr (more (.newline h))
        | semicolon cs => exact Or.inr (more (.semicolon cs))
        | bracket cs => exact Or.inr (more (.bracket cs))
      · exact Or.inr (more (h.mono fun _ => hne))
    · exact Or.inl hline

/-! ## The value and what follows it -/

theorem holdsProperty_iff :
    holdsProperty cs = true ↔
      ∃ before c behind, cs = before ++ c :: behind ∧ isBlank c = true ∧
        startsProperty behind = true := by
  constructor
  · intro h
    induction cs with
    | nil => exact absurd h (by decide)
    | cons c cs ih =>
      simp only [holdsProperty, Bool.or_eq_true, Bool.and_eq_true] at h
      rcases h with ⟨hblank, hstart⟩ | h
      · exact ⟨[], c, cs, rfl, hblank, hstart⟩
      · obtain ⟨before, d, behind, rfl, hd⟩ := ih h
        exact ⟨c :: before, d, behind, rfl, hd⟩
  · rintro ⟨before, c, behind, rfl, hblank, hstart⟩
    by_contra h
    have hmore := holdsProperty_suffix (Bool.not_eq_true _ ▸ h)
    rw [(holdsProperty_cons.1 hmore).1 hblank] at hstart
    exact absurd hstart (by decide)

theorem LongestValue.splitValue (h : LongestValue gap text rest) :
    (ModCheck.splitValue rest).1 = [] := by
  obtain ⟨run, behind, rfl, blanks, ends⟩ := h.stops
  exact splitValue_of_endsBehind blanks ends

/-- A longest value can be written, whatever follows it. -/
theorem LongestValue.plainValue (h : LongestValue gap text rest) : PlainValue text := by
  obtain ⟨c, hfirst, hc⟩ := h.first
  obtain ⟨d, hlast, hd⟩ := h.last
  refine ⟨h.chars, fun e he => ?_, fun e he => ?_, ?_⟩
  · rwa [← Option.some.inj (hfirst.symm.trans he)]
  · rwa [← Option.some.inj (hlast.symm.trans he)]
  · by_contra hholds
    obtain ⟨before, b, behind, rfl, hblank, hstart⟩ :=
      holdsProperty_iff.1 (Bool.not_eq_false _ ▸ hholds)
    have hbehind : behind ≠ [] := by
      rintro rfl
      exact absurd hstart (by decide)
    have hwhole := h.whole before [b] behind rfl (cons_ne_nil _ _) (by simpa using hblank)
    rw [startsProperty_append_stop hbehind h.splitValue, hstart] at hwhole
    exact absurd hwhole (by decide)

/-- The lexeme of a longest value is cut as it should be, and stops where it should. -/
theorem LongestValue.fits (h : LongestValue gap text rest) :
    (Lexeme.mk gap .value text).Formed .inValue ∧
      (Lexeme.mk gap .value text).Ends .inValue rest := by
  have plain := h.plainValue
  have hstop := h.splitValue
  obtain ⟨c, hfirst, hc⟩ := h.first
  obtain ⟨cs, rfl⟩ := head?_eq_some_iff.1 hfirst
  have hgap : splitGap (gap ++ c :: cs) = (gap, c :: cs) := by
    have blanks := h.blanks
    clear h
    induction gap with
    | nil => exact splitGap_of_not_isBlank hc cs
    | cons b gap ih =>
      have hmore := fun d hd => blanks d (mem_cons_of_mem b hd)
      have hline : isLineEnd b (gap ++ c :: cs) = false := by
        have hbreak : '\n' ∉ gap ++ c :: cs := fun hmem =>
          (mem_append.1 hmem).elim (fun hmem => (hmore _ hmem).2 rfl)
            fun hmem => plain.chars _ hmem (by simp)
        rw [isLineEnd, Bool.or_eq_false_iff, Bool.and_eq_false_imp]
        refine ⟨by simpa using (blanks b mem_cons_self).2, fun _ => beq_eq_false_iff_ne.2 ?_⟩
        exact fun hn => hbreak (mem_of_mem_head? hn)
      have hb : isGap b (gap ++ c :: cs) = true :=
        (isGap_or_isLineEnd _ (blanks b mem_cons_self).1).resolve_right (by simp [hline])
      rw [cons_append, splitGap, if_pos hb, ih hmore]
  refine ⟨⟨hgap, plain.isValue, fun hne => ?_⟩, hstop⟩
  have hstart := h.apart hne
  rwa [startsProperty_append_stop (cons_ne_nil _ _) hstop] at hstart

/-- The lexeme of a value reaches as far as it can. -/
theorem Lexeme.Formed.longestValue (h : (Lexeme.mk gap .value text).Formed .inValue)
    (hstop : (Lexeme.mk gap .value text).Ends .inValue rest) : LongestValue gap text rest := by
  obtain ⟨hgap, hvalue, hstart⟩ := id h
  have solid := h.solidText rfl
  have hends : (splitValue rest).1 = [] := hstop
  have hsplit := splitGap_append rest
  refine ⟨fun c hc => ?_, fun hne => ?_, ?_, ?_, fun c hc => ?_, ?_, ?_⟩
  · have hmem : c ∈ (splitGap (gap ++ text)).1 := by rwa [hgap]
    exact mem_splitGap hmem
  · rw [startsProperty_append_stop solid.ne_nil hends]
    exact hstart hne
  · obtain ⟨c, cs, rfl⟩ := exists_cons_of_ne_nil solid.ne_nil
    exact ⟨c, rfl, solid.first c rfl⟩
  · have hlast := getLast?_eq_some_getLast solid.ne_nil
    exact ⟨_, hlast, solid.last _ hlast⟩
  · cases text with
    | nil => simp at hc
    | cons d ds =>
      obtain ⟨hd, hds⟩ := hvalue
      rcases mem_cons.1 hc with rfl | hc
      · simp only [mem_cons, not_or] at hd ⊢
        exact ⟨hd.1, hd.2.2.1, hd.2.2.2⟩
      · have hmem : c ∈ (splitValue ds).1 := by rwa [hds]
        have hsigns := splitValue_not_mem hmem
        simp only [mem_cons, not_mem_nil, or_false, not_or] at hsigns ⊢
        exact ⟨hsigns.2.2, hsigns.1, hsigns.2.1⟩
  · -- inside the text the scanner has looked behind every blank, and `rest` adds nothing
    rintro before run behind rfl hne hrun
    have hbehind : behind ≠ [] := by
      rintro rfl
      have hlast := solid.last (run.getLast hne) (by
        rw [append_nil, getLast?_append_of_ne_nil _ hne, getLast?_eq_some_getLast hne])
      rw [hrun _ (getLast_mem hne)] at hlast
      exact absurd hlast (by decide)
    have hholds : holdsProperty (before ++ (run ++ behind)) = false := by
      cases htext : before ++ (run ++ behind) with
      | nil => rfl
      | cons c cs =>
        rw [htext] at hvalue solid
        refine holdsProperty_cons.2 ⟨fun hblank => ?_, holdsProperty_of_splitValue hvalue.2⟩
        rw [solid.first c rfl] at hblank
        exact absurd hblank (by decide)
    rw [startsProperty_append_stop hbehind hends]
    exact startsProperty_of_gap hrun hne (holdsProperty_suffix hholds)
  · exact ⟨_, _, hsplit.symm, fun c hc => mem_splitGap hc, endsBehind_of_splitValue hends⟩

/-! ## The scanner -/

theorem next_value_iff (hl : l.kind = .value) :
    Lexeme.next .inValue cs = (l, rest) ↔
      cs = l.gap ++ (l.text ++ rest) ∧ LongestValue l.gap l.text rest := by
  obtain ⟨gap, kind, text⟩ := l
  obtain rfl : kind = .value := hl
  constructor
  · intro h
    obtain ⟨e, formed, ends⟩ := Lexeme.fits_of_next h (by simp)
    exact ⟨e, formed.longestValue ends⟩
  · rintro ⟨rfl, longest⟩
    obtain ⟨formed, ends⟩ := longest.fits
    exact Lexeme.next_of_fits formed ends

/-- The values that are scanned behind an equals sign, at any place of a file, are exactly the
longest ones: blanks are left out at both ends, the value holds no line break, no semicolon, no
bracket and no start of a property behind a blank, and it goes on up to one of these or the end. -/
theorem nextIn_value_iff (source : String) (place : Place) (pre cs : List Char)
    (hsource : source.toList = pre ++ cs) (hplace : place.offset = byteLength pre) (t : Token)
    (after : Place) (mode : ScanMode) :
    Token.nextIn source .inValue place = (t, after, mode) ∧ t.kind = .value ↔
      ∃ gap text rest, cs = gap ++ (text ++ rest) ∧ LongestValue gap text rest ∧
        t = ⟨.value, String.ofList gap, String.ofList text, place.position.after gap,
          byteLength (pre ++ gap)⟩ ∧
        after = ⟨byteLength (pre ++ (gap ++ text)), place.position.after (gap ++ text)⟩ ∧
        mode = .normal := by
  have hcs : dropBytes place.offset source.toList = cs := by
    rw [hplace, hsource, dropBytes_byteLength]
  have token (gap text : List Char) :
      (Lexeme.mk gap .value text).toToken place = ⟨.value, String.ofList gap, String.ofList text,
        place.position.after gap, byteLength (pre ++ gap)⟩ := by
    rw [Lexeme.toToken, Place.after, hplace, byteLength_append]
  have behind (gap text : List Char) : (place.after gap).after text =
      ⟨byteLength (pre ++ (gap ++ text)), place.position.after (gap ++ text)⟩ := by
    rw [← Place.after_append, Place.after, hplace, byteLength_append pre]
  have scanned {l : Lexeme} {rest : List Char} (next : Lexeme.next .inValue cs = (l, rest)) :
      Token.nextIn source .inValue place =
        (l.toToken place, (place.after l.gap).after l.text, ScanMode.inValue.after l.kind) := by
    rw [Token.nextIn, hcs, Token.next, next]
  constructor
  · rintro ⟨h, hk⟩
    cases next : Lexeme.next .inValue cs with
    | mk l rest =>
      rw [scanned next] at h
      obtain ⟨rfl, hmore⟩ := Prod.mk.inj h
      obtain ⟨rfl, rfl⟩ := Prod.mk.inj hmore
      obtain ⟨gap, kind, text⟩ := l
      obtain rfl : kind = .value := hk
      obtain ⟨e, longest⟩ := (next_value_iff rfl).1 next
      exact ⟨gap, text, rest, e, longest, token gap text, behind gap text, rfl⟩
  · rintro ⟨gap, text, rest, e, longest, rfl, rfl, rfl⟩
    have next : Lexeme.next .inValue cs = (⟨gap, .value, text⟩, rest) :=
      (next_value_iff rfl).2 ⟨e, longest⟩
    rw [scanned next, token, behind]
    exact ⟨rfl, rfl⟩

/-- A value behind a lone carriage return, up to blanks and a property. -/
theorem nextIn_value_iff_between :
    "k=\r v w \tb =2".toList = ['k', '='] ++ "\r v w \tb =2".toList ∧
      (Token.nextIn "k=\r v w \tb =2" .inValue ⟨2, ⟨1, 2⟩⟩).1 = ⟨.value, "\r ", "v w", ⟨1, 4⟩, 4⟩ ∧
      ∃ gap text rest, "\r v w \tb =2".toList = gap ++ (text ++ rest) ∧
        LongestValue gap text rest ∧ String.ofList text = "v w" := by
  have h := (nextIn_value_iff "k=\r v w \tb =2" ⟨2, ⟨1, 2⟩⟩ ['k', '='] "\r v w \tb =2".toList rfl
    rfl ⟨.value, "\r ", "v w", ⟨1, 4⟩, 4⟩ ⟨7, ⟨1, 7⟩⟩ .normal).1 ⟨by decide, rfl⟩
  obtain ⟨gap, text, rest, e, longest, ht, -⟩ := h
  exact ⟨rfl, by decide, gap, text, rest, e, longest, (Token.mk.inj ht).2.2.1.symm⟩

/-! ## The look-ahead and the tokens -/

/-- The look-ahead sees the equals sign behind a name, if no carriage return is among the blanks. -/
theorem Lexed.assigns_iff {ls : List Lexeme} (h : Lexed .normal (l :: ls)) :
    assigns (spell (l :: ls)) = true ↔ l.kind = .equals ∧ '\r' ∉ l.gap := by
  have blank {c : Char} (hc : c ∈ l.gap) := h.mem_gap mem_cons_self hc
  constructor
  · intro ha
    refine ⟨h.head_of_assigns ha, fun hr => ?_⟩
    -- the look-ahead stops among the blanks, and none of them is an equals sign
    have hstop : l.gap.dropWhile isLineBlank ≠ [] := fun e =>
      absurd (dropWhile_eq_nil_iff.1 e '\r' hr) (by decide)
    rw [assigns, spell_cons, beq_iff_eq, dropWhile_append, if_neg (by simpa using hstop),
      head?_append_of_ne_nil _ hstop] at ha
    have hmem : '=' ∈ l.gap := (dropWhile_sublist isLineBlank).mem (mem_of_mem_head? ha)
    exact absurd (blank hmem).1 (by decide)
  · rintro ⟨hkind, hr⟩
    have htext : l.text = ['='] := by
      cases h with
      | stop hgap => simp at hkind
      | cons formed ends rest =>
        have form := formed.2
        simp only [Lexeme.HasForm, hkind] at form
        exact form.1
    have hgap : ∀ c ∈ l.gap, isLineBlank c = true := by
      intro c hc
      have hne : c ≠ '\r' := fun e => hr (e ▸ hc)
      simp [isLineBlank, blank hc, hne]
    rw [assigns, spell_cons, htext, dropWhile_append_of_pos hgap]
    rfl

theorem Lexed.startsProperty_iff {ls : List Lexeme} (h : Lexed .normal (l :: ls))
    (visible : ∀ c ∈ (spell (l :: ls)).head?, isBlank c = false) :
    startsProperty (spell (l :: ls)) = true ↔
      l.kind = .identifier ∧ ∃ m ms, ls = m :: ms ∧ m.kind = .equals ∧ '\r' ∉ m.gap := by
  have hgap : l.gap = [] := by
    cases e : l.gap with
    | nil => rfl
    | cons c gap =>
      have blank : isBlank c = true := (h.mem_gap mem_cons_self (by simp [e])).1
      rw [visible c (by simp [e])] at blank
      simp at blank
  rw [spell_cons, hgap, nil_append]
  cases h with
  | stop => simp [startsProperty]
  | cons formed ends rest =>
    by_cases hkind : l.kind = .identifier
    · rw [hkind] at rest
      simp only [Lexeme.Ends, hkind] at ends
      rw [startsProperty_name (formed.isName hkind) ends.1]
      cases ls with
      | nil => cases rest
      | cons m ms =>
        rw [rest.assigns_iff]
        simp [hkind]
    · refine iff_of_false (fun hstart => hkind ?_) fun h => hkind h.1
      obtain ⟨gap, kind, text⟩ := l
      obtain ⟨c, cs, rfl⟩ := exists_cons_of_ne_nil formed.2.text_ne.1
      rw [cons_append, startsProperty, Bool.and_eq_true] at hstart
      exact formed.2.kind_eq_identifier hstart.1

/-- The look-ahead finds a property at the start of a text just if the first tokens are a name and
an equals sign, with no carriage return between them. -/
theorem startsProperty_iff_startsAssignment (source : String)
    (visible : ∀ c ∈ source.toList.head?, isBlank c = false) :
    startsProperty source.toList = true ↔
      startsAssignment (Token.scan source) = true ∧
        ∀ t ∈ (Token.scan source)[1]?, '\r' ∉ t.lead.toList := by
  have lexed := scan_lexed source
  rw [← written_scan source, ← spell_map_lexeme] at visible ⊢
  cases hscan : Token.scan source with
  | nil =>
    rw [hscan] at lexed
    nomatch lexed
  | cons t ts =>
    rw [hscan] at lexed visible
    rw [map_cons, lexed.startsProperty_iff visible]
    cases ts with
    | nil => simp [startsAssignment]
    | cons u us => simp [startsAssignment, Token.lexeme, and_assoc]

/-- A name with points and a tab before its equals sign. -/
theorem startsProperty_iff_startsAssignment_tab :
    (∀ c ∈ "!a.b_ç\t =x\r=1".toList.head?, isBlank c = false) ∧
      startsProperty "!a.b_ç\t =x\r=1".toList = true ∧
      startsAssignment (Token.scan "!a.b_ç\t =x\r=1") = true := by
  have visible : ∀ c ∈ "!a.b_ç\t =x\r=1".toList.head?, isBlank c = false := by
    intro c hc
    obtain rfl : '!' = c := Option.some.inj hc
    decide
  have starts : startsProperty "!a.b_ç\t =x\r=1".toList = true := by decide
  exact ⟨visible, starts, ((startsProperty_iff_startsAssignment _ visible).1 starts).1⟩

/-- Behind a carriage return the equals sign is a token, and the look-ahead does not see it. -/
theorem lookahead_stops_at_return :
    "a\r=1".toList.head?.any isBlank = false ∧ startsAssignment (Token.scan "a\r=1") = true ∧
      startsProperty "a\r=1".toList = false := by
  decide +kernel

end ModCheck
