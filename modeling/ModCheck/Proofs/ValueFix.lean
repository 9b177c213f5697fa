import ModCheck.Proofs.TokenFix

/-
  One correction inside a value. What is offered there can be written there (`Writable`): it brings
  nothing that ends a value, but an equals sign in a tag can make the start of another property of
  what stands before it. A text that is read as a value holds no property (`Revalued.whole`). On the
  line of its key a value is one token; if its new text holds no property it is scanned as one token
  again, and all else is read as before (`revalued_first_line`). On any line the same holds of a
  correction inside one token that stays one (`value_fix_stays`).
-/

namespace ModCheck

open List
open Text (isBlank)

variable {back front text value : List Char} {fix : Correction} {i : Nat} {r : CharRange}
  {source : String}

/-! ## Another text for a value -/

/-- The text of a value behind an equals sign can be exchanged for one that stays whole. -/
theorem lexed_revalued {us vs : List Token} {e t : Token}
    (h : Lexed .normal ((us ++ e :: t :: vs).map Token.lexeme)) (he : e.kind = .equals)
    (ht : t.kind = .value) (plain : PlainValue text) (hne : text ≠ [])
    (hgap : t.lead.toList ≠ [] → startsProperty text = false) :
    Lexed .normal ((us ++ [e]).map Token.lexeme ++
      ⟨t.lead.toList, t.kind, text⟩ :: vs.map Token.lexeme) := by
  rw [map_append] at h
  obtain ⟨last, -, lexed⟩ := (lexed_append (cons_ne_nil _ _)).1 h
  obtain ⟨formed, -, -⟩ := lexed.of_cons (Or.inr (cons_ne_nil _ _))
  have hsign : e.text.toList = ['='] := by
    have form := formed.2
    simp only [Token.lexeme, he] at form
    exact form.1
  have halike (cs cs' : List Char) : Alike ('=' :: cs) ('=' :: cs') :=
    ⟨⟨'=', rfl, by decide⟩, ⟨'=', rfl, by decide⟩, rfl, rfl, rfl⟩
  have hspell (l : Lexeme) : spell (e.lexeme :: l :: vs.map Token.lexeme) =
      e.lead.toList ++ '=' :: spell (l :: vs.map Token.lexeme) := by
    rw [spell_cons, Token.lexeme, hsign]
    rfl
  have hswap := lexed_swap h (cons_ne_nil _ _) (hspell _)
    (hspell ⟨t.lead.toList, t.kind, text⟩) (halike _ _) ?_ ?_
  · simpa using hswap
  · intro c hc hpart
    exact ⟨rfl, rfl⟩
  · intro mode lexed
    obtain ⟨formed, -, rest⟩ := lexed.of_cons (Or.inr (cons_ne_nil _ _))
    have hmode : mode.after e.lexeme.kind = .inValue := by
      rw [Token.lexeme, he]
      rfl
    refine .cons formed (by simp [Lexeme.Ends, Token.lexeme, he]) ?_
    rw [hmode] at rest ⊢
    obtain ⟨formed, ends, rest⟩ := rest.of_cons (Or.inl (by simp [Token.lexeme, ht]))
    have hsolid : SolidText t.text.toList :=
      formed.solidText (by simp [Token.lexeme, ht, TokenKind.isSolid])
    obtain ⟨c, cs, hcs⟩ := exists_cons_of_ne_nil hsolid.ne_nil
    obtain ⟨d, ds, rfl⟩ := exists_cons_of_ne_nil hne
    refine .cons ⟨?_, ?_⟩ ?_ ?_
    · have hsplit := formed.1
      simp only [Token.lexeme, hcs] at hsplit
      exact splitGap_swap (hsolid.first c (by rw [hcs]; rfl)) (plain.first d rfl) hsplit
    · simp only [ht]
      exact ⟨plain.isValue, hgap⟩
    · simp only [Token.lexeme, ht] at ends ⊢
      exact ends
    · exact rest

/-! ## What is written -/

/-- The names that can be offered inside a value are not empty and have only the characters of
names. -/
def Schema.HasWordNames (schema : Schema) : Prop :=
  ∀ name ∈ schema.valueNames, name ≠ "" ∧ ∀ c ∈ name.toList, Token.isWordChar c = true

instance (schema : Schema) : Decidable schema.HasWordNames :=
  decidable_of_iff
    (∀ name ∈ schema.valueNames, name ≠ "" ∧ name.toList.all Token.isWordChar = true)
    (by simp only [Schema.HasWordNames, all_eq_true])

/-- A text to write at a range of a value: it brings no blanks of its own and nothing that ends a
value, and an equals sign only in a tag. -/
structure Writable (value : List Char) (r : CharRange) (text : List Char) : Prop where
  chars : ∀ c ∈ text, c ∈ (value.take r.stop).drop r.start ∨ isBlank c = false ∧ c ∉ [';', '[']
  first : r.start = 0 → ∀ c, text.head? = some c → isBlank c = false
  last : ∃ c, text.getLast? = some c ∧ isBlank c = false
  equals : '=' ∈ text → '<' ∈ value.take r.start

theorem writable_of_chars {text : List Char} (hne : text ≠ [])
    (h : ∀ c ∈ text, isBlank c = false ∧ c ∉ [';', '[', '=']) (value : List Char) (r : CharRange) :
    Writable value r text := by
  refine ⟨fun c hc => Or.inr ⟨(h c hc).1, ?_⟩, fun _ c hc => ?_, ?_, fun hmem => ?_⟩
  · have hsigns := (h c hc).2
    simp only [mem_cons, not_mem_nil, or_false, not_or] at hsigns ⊢
    exact ⟨hsigns.1, hsigns.2.1⟩
  · exact (h c (mem_of_mem_head? hc)).1
  · exact ⟨_, getLast?_eq_some_getLast hne, (h _ (getLast_mem hne)).1⟩
  · exact absurd (h '=' hmem).2 (by simp)

theorem isWordChar_spec {c : Char} (h : Token.isWordChar c = true) :
    isBlank c = false ∧ c ∉ [';', '[', '='] := by
  constructor
  · by_contra hblank
    rw [not_isWordChar_of_isBlank (Bool.not_eq_false _ ▸ hblank)] at h
    exact absurd h (by decide)
  · intro hc
    have hsign : c ∈ [';', '[', ']', '=', '-', '\n', '\r'] := by
      simp only [mem_cons, not_mem_nil, or_false] at hc ⊢
      rcases hc with hc | hc | hc <;> simp [hc]
    rw [isWordChar_eq_false hsign] at h
    exact absurd h (by decide)

/-- What is offered inside a value can be written there. -/
theorem writable_of_mem_valueIssues {schema : Schema} (names : schema.HasWordNames)
    {options : Options} {key value : String} {field : Field} {i : Issue}
    (hi : i ∈ valueIssues schema options key value field) {text : String}
    (ht : i.replacement = some text) : Writable value.toList i.range text.toList := by
  rcases plain_or_opens hi with plain | ⟨-, pre, name, post, hvalue, hopen, hrange, htext⟩
  · rcases (plain.offer text ht).1 with rfl | hname
    · refine writable_of_chars (by decide) (fun c hc => ?_) _ _
      obtain rfl : c = ':' := by simpa using hc
      exact ⟨by decide, by decide⟩
    · obtain ⟨hne, hword⟩ := names text hname
      refine writable_of_chars ?_ (fun c hc => isWordChar_spec (hword c hc)) _ _
      simpa using hne
  · rw [ht] at htext
    obtain rfl := Option.some.inj htext
    rw [hrange, hvalue, String.toList_ofList]
    have hname : ((pre ++ (name ++ post)).take (pre.length + name.length)).drop pre.length =
        name := by
      rw [← append_assoc, ← length_append, take_left, drop_left]
    refine ⟨fun c hc => ?_, fun hzero => ?_, ⟨'=', by simp, by decide⟩, fun _ => ?_⟩
    · dsimp only
      rw [hname]
      rcases mem_append.1 hc with hc | hc
      · exact Or.inl hc
      · rw [mem_singleton.1 hc]
        exact Or.inr (by decide)
    · rw [length_eq_zero_iff.1 hzero] at hopen
      simp at hopen
    · dsimp only
      rwa [take_left]

theorem IsValue.not_mem_signs (h : IsValue value) : ∀ c ∈ value, c ∉ ['\n', ';', '['] := by
  intro c hc
  cases value with
  | nil => exact h.elim
  | cons d ds =>
    have hsigns : c ∉ [';', '[', '\n'] := by
      rcases mem_cons.1 hc with rfl | hc
      · have hfirst := h.1
        simp only [mem_cons, not_mem_nil, or_false, not_or] at hfirst ⊢
        exact ⟨hfirst.2.2.1, hfirst.2.2.2, hfirst.1⟩
      · have hmem : c ∈ (splitValue ds).1 := by rwa [h.2]
        exact splitValue_not_mem hmem
    simp only [mem_cons, not_mem_nil, or_false, not_or] at hsigns ⊢
    exact ⟨hsigns.2.2, hsigns.1, hsigns.2.1⟩

/-- What is written at a range leaves no blanks at the start. -/
theorem Writable.first_replace (writable : Writable value r text) (hvalue : value ≠ [])
    (hfirst : ∀ c, value.head? = some c → isBlank c = false) :
    ∀ c, (r.replace text value).head? = some c → isBlank c = false := by
  obtain ⟨last, hlast, -⟩ := writable.last
  have hne : text ≠ [] := by
    rintro rfl
    simp at hlast
  intro c hc
  rw [CharRange.replace] at hc
  by_cases hstart : value.take r.start = []
  · have hzero : r.start = 0 := (take_eq_nil_iff.1 hstart).resolve_right hvalue
    rw [hstart, nil_append, head?_append_of_ne_nil _ hne] at hc
    exact writable.first hzero c hc
  · rw [head?_append_of_ne_nil _ hstart] at hc
    apply hfirst c
    rwa [← take_append_drop r.start value, head?_append_of_ne_nil _ hstart]

/-- Nor at the end. -/
theorem last_replace (htext : ∃ c, text.getLast? = some c ∧ isBlank c = false)
    (hlast : ∀ c, value.getLast? = some c → isBlank c = false) :
    ∀ c, (r.replace text value).getLast? = some c → isBlank c = false := by
  obtain ⟨last, htext, hblank⟩ := htext
  have hne : text ≠ [] := by
    rintro rfl
    simp at htext
  intro c hc
  rw [CharRange.replace, getLast?_append_of_ne_nil _ (by simp [hne])] at hc
  by_cases hstop : value.drop r.stop = []
  · rw [hstop, append_nil, htext] at hc
    rwa [← Option.some.inj hc]
  · rw [getLast?_append_of_ne_nil _ hstop] at hc
    apply hlast c
    rwa [← take_append_drop r.stop value, getLast?_append_of_ne_nil _ hstop]

/-- Nothing that is written ends a value. -/
theorem not_mem_replace {signs : List Char} (hvalue : ∀ c ∈ value, c ∉ signs)
    (htext : ∀ c ∈ text, c ∈ (value.take r.stop).drop r.start ∨ c ∉ signs) :
    ∀ c ∈ r.replace text value, c ∉ signs := by
  intro c hc
  rcases mem_append.1 hc with hc | hc
  · exact hvalue c (mem_of_mem_take hc)
  rcases mem_append.1 hc with hc | hc
  · rcases htext c hc with hc | hsigns
    · exact hvalue c (mem_of_mem_take (mem_of_mem_drop hc))
    · exact hsigns
  · exact hvalue c (mem_of_mem_drop hc)

/-- A value on one line stays whole with something else written at a range. -/
theorem plainValue_replace (solid : SolidText value) (hvalue : IsValue value)
    (writable : Writable value r text) (hwhole : holdsProperty (r.replace text value) = false) :
    PlainValue (r.replace text value) ∧ r.replace text value ≠ [] := by
  obtain ⟨last, hlast, hblank⟩ := writable.last
  refine ⟨⟨not_mem_replace hvalue.not_mem_signs fun c hc => ?_,
    writable.first_replace solid.ne_nil solid.first, last_replace writable.last solid.last,
    hwhole⟩, ?_⟩
  · refine (writable.chars c hc).imp_right fun ⟨hblank, hsigns⟩ => ?_
    rw [mem_cons, not_or]
    exact ⟨(ne_break_of_not_isBlank hblank).1, hsigns⟩
  · rw [CharRange.replace]
    intro hnil
    simp_all

/-! ## Where it is written -/

/-- A correction whose ends have addresses can be made. -/
theorem applyAll_resolved (h : fix.span.Resolves source.toList)
    (hle : fix.span.start ≤ fix.span.stop) :
    ∃ output, Correction.applyAll source [fix] = .ok ⟨output, 1, []⟩ := by
  obtain ⟨n, m, hn, hm⟩ := h
  have hnm : n ≤ m := hn.le hm hle
  have hold := take_append_drop_take source.toList hnm
  have hsource : source.toList =
      source.toList.take n ++ ((source.toList.take m).drop n ++ source.toList.drop m) := by
    rw [← append_assoc, hold, take_append_drop]
  refine ⟨_, applyAll_single (c := fix) hsource ?_ ?_ ?_⟩
  · rw [drop_take_append_drop _ hnm]
    exact hn.here
  · rw [hold]
    exact hm.here
  · rw [hold, ← hn.place, ← hm.place]

/-! ## The first line of a value -/

theorem Lexed.formed {mode : ScanMode} {ls : List Lexeme} (h : Lexed mode ls) {l : Lexeme}
    (hl : l ∈ ls) (hk : l.kind ≠ .endOfFile) : ∃ mode, l.Formed mode := by
  induction h with
  | stop =>
    rw [mem_singleton.1 hl] at hk
    exact absurd rfl hk
  | cons formed _ _ ih =>
    rcases mem_cons.1 hl with rfl | hl
    · exact ⟨_, formed⟩
    · exact ih hl

theorem holdsProperty_of_append {cs rest : List Char} (h : holdsProperty (cs ++ rest) = false)
    (hstop : (splitValue rest).1 = []) : holdsProperty cs = false := by
  induction cs with
  | nil => rfl
  | cons c cs ih =>
    obtain ⟨hstart, hmore⟩ := holdsProperty_cons.1 h
    refine holdsProperty_cons.2 ⟨fun hblank => ?_, ih hmore⟩
    by_cases hcs : cs = []
    · rw [hcs]
      rfl
    · rw [← startsProperty_append_stop hcs hstop]
      exact hstart hblank

section

variable {source : String} {key equals : Token} {value us used more : List Token}
  (placed : Placed source key equals value us used more)
include placed

theorem Placed.blank {t : Token} (ht : t ∈ used) : ∀ c ∈ t.lead.toList, isBlank c = true := by
  have hmem : t.lexeme ∈ (used ++ more).map Token.lexeme :=
    mem_map_of_mem (mem_append_left _ ht)
  obtain ⟨mode, formed⟩ := placed.lexed.formed hmem (placed.inner t ht).2
  exact formed.gap_isBlank

theorem Placed.line :
    (Position.after ⟨1, 0⟩ (written (us ++ [key, equals]))).line = key.line := by
  have laid := laid_scan source
  rw [placed.scan] at laid
  obtain ⟨sane, start, -, sane', start', -, -⟩ := (laid_append.1 laid).2
  rw [nil_append] at start start'
  obtain ⟨-, hkey⟩ := line_after_solid sane start (by rw [placed.key]; rfl)
  obtain ⟨hequals, hafter⟩ := line_after_solid sane' start' (by rw [placed.equals]; rfl)
  have hwritten : written (us ++ [key, equals]) = written us ++ key.lead.toList ++
      key.text.toList ++ equals.lead.toList ++ equals.text.toList := by
    simp [written_append]
  rw [hwritten, hafter, hequals, hkey]

theorem Placed.whole_text : holdsProperty (joinTokensFrom
    (Position.after ⟨1, 0⟩ (written (us ++ [key, equals]))).line (valueTokens used)) = false :=
  (whole_tokens placed.lexed placed.more (laid_append.1 placed.laid).1 placed.run placed.inner).1

/-- A value that starts on the line of its key starts right behind the equals sign. -/
theorem Placed.first_token (hv : value ≠ [])
    (hline : (valueSpan equals value).start.line ≤ key.line) :
    ∃ t rest, used = t :: rest ∧ t.kind.isSolid = true ∧ value = t :: valueTokens rest := by
  obtain ⟨breaks, t, rest, hused, hbreaks, solid, e⟩ := placed.exists_first hv
  cases breaks with
  | nil => exact ⟨t, rest, hused, solid, e⟩
  | cons u breaks =>
    have laid := placed.laid
    rw [hused] at laid
    obtain ⟨sane, -, -, laid⟩ := laid
    have hle := laid.line_le (t := t) (by simp)
    have hstart : (valueSpan equals value).start.line = t.line := by
      rw [e]
      rfl
    rw [line_after_newline sane (hbreaks u mem_cons_self), placed.line] at hle
    omega

/-- The part of a value on the line of its key is one token, and more of it can only follow on
later lines. -/
theorem Placed.first_line (hv : value ≠ [])
    (hline : (valueSpan equals value).start.line ≤ key.line) :
    ∃ t rest, used = t :: rest ∧ t.kind = .value ∧ IsValue t.text.toList ∧
      (t.lead.toList ≠ [] → startsProperty t.text.toList = false) ∧
      value = t :: valueTokens rest ∧
      (joinTokensFrom t.line (valueTokens rest) = [] ∨
        (joinTokensFrom t.line (valueTokens rest)).head? = some '\n') := by
  obtain ⟨t, rest, rfl, solid, e⟩ := placed.first_token hv hline
  have lexed := placed.lexed
  have laid := placed.laid
  have run := placed.run
  have inner := placed.inner
  obtain ⟨sane, start, -, laid⟩ := laid
  obtain ⟨hkind, hvalue, hgap, hstop, hnormal⟩ := value_token lexed placed.more run inner solid
  have goes := goesOn (laid_append.1 laid).1 fun u hu => run.solid inner (mem_cons_of_mem _ hu)
  rw [(line_after_solid sane start solid).2] at goes
  exact ⟨t, rest, rfl, hkind, hvalue, hgap, e, goes.breaks hnormal placed.more run.2.2.2
    (fun u hu => inner u (mem_cons_of_mem _ hu)) hstop⟩

end

theorem Writable.of_append (hr : r.start ≤ r.stop) (h : r.stop ≤ front.length)
    (writable : Writable (front ++ back) r text) : Writable front r text := by
  obtain ⟨chars, first, last, equals⟩ := writable
  rw [take_append_of_le_length h] at chars
  rw [take_append_of_le_length (Nat.le_trans hr h)] at equals
  exact ⟨chars, first, last, equals⟩

/-- A place in a text that is not on a later line stands before the first line break. -/
theorem le_length_of_line (hback : back = [] ∨ back.head? = some '\n')
    (hi : i ≤ (front ++ back).length) {p : Position}
    (hline : (p.after ((front ++ back).take i)).line ≤ p.line) : i ≤ front.length := by
  rcases hback with rfl | hback
  · simpa using hi
  · obtain ⟨cs, rfl⟩ := head?_eq_some_iff.1 hback
    by_contra hlt
    obtain ⟨n, hn⟩ : ∃ n, i - front.length = n + 1 := ⟨i - front.length - 1, by omega⟩
    rw [Position.after_line, take_append, count_append, hn, take_succ_cons,
      count_cons_self] at hline
    omega

section

variable {key equals t : Token} {us ts more value : List Token}

/-- On the line of its key, a correction stands in the first token of a value. -/
theorem Placed.first_range {used : List Token}
    (placed : Placed source key equals value us used more)
    (on : fix.On (valueSpan equals value).start (joinTokens value) r)
    (hline : fix.span.stop.line ≤ key.line) :
    ∃ t rest, used = t :: rest ∧ t.kind = .value ∧ IsValue t.text.toList ∧
      value = t :: valueTokens rest ∧ r.stop ≤ t.text.toList.length ∧
      (joinTokensFrom t.line (valueTokens rest) = [] ∨
        (joinTokensFrom t.line (valueTokens rest)).head? = some '\n') := by
  rw [on.span] at hline
  have hv : value ≠ [] := by
    rintro rfl
    exact absurd on.inside.before (Nat.not_lt_zero _)
  have hfirst : (valueSpan equals value).start.line ≤ key.line := by
    refine Nat.le_trans ?_ hline
    rw [Position.after_line]
    exact Nat.le_add_right _ _
  obtain ⟨t, rest, rfl, hkind, htext, -, rfl, hbreak⟩ := placed.first_line hv hfirst
  refine ⟨t, rest, rfl, hkind, htext, rfl, ?_, hbreak⟩
  obtain ⟨sane, start, -, -⟩ := placed.laid
  have htline := (line_after_solid sane start (by rw [hkind]; rfl)).1
  rw [placed.line] at htline
  rw [valueSpan_start] at hline
  exact le_length_of_line hbreak on.inside.upper (hline.trans htline.ge)

/-- The first token of a value holds no property with something else written in it, if the value
holds none: blanks before it may be all that keeps a name from starting one. -/
theorem Placed.holdsProperty_first
    (placed : Placed source key equals (t :: valueTokens ts) us (t :: ts) more)
    (solid : t.kind.isSolid = true) (hbreak : joinTokensFrom t.line (valueTokens ts) = [] ∨
      (joinTokensFrom t.line (valueTokens ts)).head? = some '\n')
    (hr : r.start ≤ r.stop) (hstop : r.stop ≤ t.text.toList.length)
    (writable : Writable (joinTokens (t :: valueTokens ts)) r text)
    (held : r.Held (joinTokens (t :: valueTokens ts)))
    (hwhole : holdsProperty (r.replace text (joinTokens (t :: valueTokens ts))) = false) :
    holdsProperty (t.lead.toList ++ r.replace text t.text.toList) = false := by
  have blank := placed.blank mem_cons_self
  obtain ⟨sane, start, -, -⟩ := placed.laid
  have hold := placed.whole_text
  rw [← placed.value, joinTokensFrom, ← (line_after_solid sane start solid).1] at hold
  rw [joinTokens] at writable held hwhole
  refine holdsProperty_of_append ?_ (splitValue_of_break hbreak)
  rw [append_assoc, ← CharRange.replace_append hr hstop]
  exact holdsProperty_gap blank (fun hne => held.startsProperty_eq_false writable.equals
    (startsProperty_of_gap blank hne (by simpa using hold))) hwhole

end

/-- On the line of its key, a value with something else written at a range is read in the place of
the old one, if it holds no property. -/
theorem revalued_first_line {b : Block} (hb : b ∈ blocksOf (Token.scan source)) {key equals : Token}
    {value : List Token} {ending : ValueClose} {due : Bool}
    (hst : .assignment key equals value ending due ∈ b.statements)
    (on : fix.On (valueSpan equals value).start (joinTokens value) r)
    (hline : fix.span.stop.line ≤ key.line)
    (writable : Writable (joinTokens value) r fix.replacement.toList)
    (held : r.Held (joinTokens value))
    (hwhole : holdsProperty (r.replace fix.replacement.toList (joinTokens value)) = false)
    (file : String) :
    ∃ output, Correction.applyAll source [fix] = .ok ⟨output, 1, []⟩ ∧
      Revalued source output file ⟨String.ofList (joinTokens value), key.lineSpan,
        valueSpan equals value, ending = .semicolon⟩
        (String.ofList (r.replace fix.replacement.toList (joinTokens value))) := by
  obtain ⟨us, used, more, placed⟩ := exists_placed hb hst
  obtain ⟨t, ts, rfl, hkind, htext, rfl, hstop, hbreak⟩ := placed.first_range on hline
  obtain ⟨hr, hspan⟩ := on
  have solid : t.kind.isSolid = true := by rw [hkind]; rfl
  have hholds := placed.holdsProperty_first solid hbreak hr.ordered hstop writable held hwhole
  obtain ⟨plain, hne⟩ := plainValue_replace ((placed.sane mem_cons_self).solid solid) htext
    (writable.of_append hr.ordered hstop) (holdsProperty_suffix hholds)
  have lexed := scan_lexed source
  rw [placed.scan, append_cons us] at lexed
  have lexed := lexed_revalued lexed placed.equals hkind plain hne
    fun hlead => startsProperty_of_gap (placed.blank mem_cons_self) hlead hholds
  have hscan : Token.scan source = (us ++ [key] ++ [equals]) ++ t :: (ts ++ more) := by
    simp [placed.scan]
  rw [valueSpan_start, joinTokens, take_append_of_le_length hstop,
    take_append_of_le_length (hr.ordered.trans hstop)] at hspan
  obtain ⟨output, made, scanned⟩ := scan_in_token hscan solid hr.ordered hspan
    (fun hmem => plain.chars _ hmem (by simp)) lexed
  have hst : .assignment key equals ([] ++ t :: valueTokens ts) ending due ∈ b.statements := hst
  have revalued := revalued_reworded hb hst scanned file
  simp only [nil_append, joinTokens, String.toList_ofList] at revalued ⊢
  rw [CharRange.replace_append hr.ordered hstop]
  exact ⟨output, made, revalued⟩

theorem correction_inFile {schema : FormulaSchema} {options : Options} {value file context : String}
    {origin : Position} {i : Issue}
    (h : fix ∈ (i.inFile schema options value origin file context).corrections) :
    i.replacement = some fix.replacement ∧ fix.span = i.range.toSpan value.toList origin := by
  obtain ⟨text, htext, rfl⟩ := Option.map_eq_some_iff.1 (Option.mem_toList.1 h)
  exact ⟨htext, rfl⟩

/-- A correction inside a value can be made. The text is then read as before, but for the value of
that property, which has the offered text at the range of the issue, only if the new value holds no
property; on the line of the key, whenever it holds none; on this line and on later ones, whenever
it is made inside one name or word, which stays a name or a word. -/
theorem value_fix_stays {schema : Schema} (names : schema.HasWordNames) (options : Options)
    (source file : String) {o : Object} (ho : o ∈ (Document.parse source file).objects)
    {k : String} {p : Property} (hp : (k, p) ∈ o.properties) {key context : String} {field : Field}
    {i : Issue} (hi : i ∈ valueIssues schema options key p.value field) {fix : Correction}
    (hfix : fix ∈ (i.inFile schema.formulas options p.value p.valueSpan.start o.file
      context).corrections) {value : String}
    (hvalue : value.toList = i.range.replace fix.replacement.toList p.value.toList) :
    ∃ output, Correction.applyAll source [fix] = .ok ⟨output, 1, []⟩ ∧
      (Revalued source output file p value → holdsProperty value.toList = false) ∧
      (fix.span.stop.line = p.nameSpan.line → holdsProperty value.toList = false →
        Revalued source output file p value) ∧
      ∀ t ∈ Token.scan source, ∀ place, fix.StaysIn t place →
        Revalued source output file p value := by
  obtain ⟨htext, hspan⟩ := correction_inFile hfix
  obtain ⟨b, hb, -, -, -, -, -, -, origin⟩ := object_origin ho
  obtain ⟨st, hst, name, n, e, -⟩ := origin k p hp
  have inside : i.range.Inside 0 p.value.toList.length := by
    rw [String.length_toList]
    exact (compatible_valueIssues schema options key p.value field).1 (i.range, fix.replacement)
      (mem_replacements.2 ⟨i, hi, rfl, htext⟩)
  obtain ⟨output, made⟩ : ∃ output, Correction.applyAll source [fix] = .ok ⟨output, 1, []⟩ := by
    apply applyAll_resolved
    · rw [hspan]
      exact resolves_range hb hst e i.range
    · rw [hspan]
      exact (inside.toSpan_on p.valueSpan.start).1.ordered
  obtain ⟨name, equals, tokens, ending, due, rfl, -, rfl⟩ := assignment_of_property? e
  rw [CharRange.toSpan_eq inside.ordered] at hspan
  simp only [String.toList_ofList] at inside hspan hvalue
  have on : fix.On (valueSpan equals tokens).start (joinTokens tokens) i.range := ⟨inside, hspan⟩
  have revalued {q : Property} (h : ∃ output', Correction.applyAll source [fix] =
      .ok ⟨output', 1, []⟩ ∧ Revalued source output' file q
        (String.ofList (i.range.replace fix.replacement.toList (joinTokens tokens)))) :
      Revalued source output file q value := by
    obtain ⟨output', made', h⟩ := h
    rw [made] at made'
    obtain rfl : output = output' := by simpa using made'
    rwa [← hvalue, String.ofList_toList] at h
  refine ⟨output, made, fun h => h.whole ho hp, fun hline hwhole => revalued ?_,
    fun t ht place stays => revalued (revalued_in_token hb hst on ht stays file)⟩
  rw [hvalue] at hwhole
  have writable := writable_of_mem_valueIssues names hi htext
  have held := held_of_mem_valueIssues hi htext
  simp only [String.toList_ofList] at writable held
  exact revalued_first_line hb hst on (Nat.le_of_eq hline) writable held hwhole file

/-- A schema with one type of objects, whose one key takes a text with tags. -/
def markupSchema : Schema :=
  { Schema.empty with
    objects :=
      { types := [⟨"A", .definition, some "A", false, true, [], none⟩]
        classes := [⟨"A", [⟨"k", .richText, false, none, false⟩]⟩]
        enums := [] }
    richText := ⟨TagSpec.table [⟨"br", [], [], []⟩], .empty⟩ }

/-- The issue of the one tag of `markupSchema`, written without arguments. -/
def plainTagIssue (range : CharRange) : Issue :=
  { severity := .info, code := .zeroArgumentStyle
    text := "Tags without arguments are written as <br=>", range, replacement := some "br=" }

/-- The issue of a tag whose name `markupSchema` does not have. -/
def unknownTagIssue : Issue :=
  { severity := .error, code := .unknownTag, text := "Unknown tag 'bt'", range := ⟨3, 5⟩
    suggestion := some "Did you mean 'br'?", replacement := some "br" }

/-- The equals sign that a tag lacks is put in where it stands, and the name of a tag is corrected
on a later line. -/
theorem value_fix_stays_in_tag :
    markupSchema.HasWordNames ∧
      (∃ m ∈ (validate markupSchema {} [⟨"f", "[A] k=x <br>;"⟩]).all, ∃ fix ∈ m.corrections,
        ∃ output, Correction.applyAll "[A] k=x <br>;" [fix] = .ok ⟨output, 1, []⟩ ∧
          (Document.parse output "f").objects.map (Object.view (·.value)) =
            [("A", [("k", "x <br=>")])]) ∧
      ∃ m ∈ (validate markupSchema {} [⟨"f", "[A] k=x\n<bt> y;"⟩]).all, ∃ fix ∈ m.corrections,
        ∃ output, Correction.applyAll "[A] k=x\n<bt> y;" [fix] = .ok ⟨output, 1, []⟩ ∧
          (Document.parse output "f").objects.map (Object.view (·.value)) =
            [("A", [("k", "x\n<br> y")])] := by
  have names : markupSchema.HasWordNames := by decide +kernel
  refine ⟨names, ?_, ?_⟩
  · have ho : (⟨"A", "f", [("k", ⟨"x <br>", ⟨1, 4, 5⟩, ⟨⟨1, 6⟩, ⟨1, 12⟩⟩, true⟩)], 1, 1, ⟨1, 1, 2⟩,
        none, none⟩ : Object) ∈ (Document.parse "[A] k=x <br>;" "f").objects := by decide +kernel
    have hi : plainTagIssue ⟨3, 5⟩ ∈ valueIssues markupSchema {} "k" "x <br>"
        ⟨"k", .richText, false, none, false⟩ := by decide +kernel
    have hfix : (⟨"f", ⟨⟨1, 9⟩, ⟨1, 11⟩⟩, "br="⟩ : Correction) ∈ ((plainTagIssue ⟨3, 5⟩).inFile
        markupSchema.formulas {} "x <br>" ⟨1, 6⟩ "f" "A.k").corrections := by decide +kernel
    have hvalue : "x <br=>".toList =
        (⟨3, 5⟩ : CharRange).replace "br=".toList "x <br>".toList := by decide +kernel
    obtain ⟨output, made, -, stays, -⟩ := value_fix_stays names {} "[A] k=x <br>;" "f" ho
      mem_cons_self hi hfix hvalue
    refine ⟨_, ?_, _, hfix, output, made, ?_⟩
    · decide +kernel
    · rw [stays rfl (by decide +kernel)]
      decide +kernel
  · have ho : (⟨"A", "f", [("k", ⟨"x\n<bt> y", ⟨1, 4, 5⟩, ⟨⟨1, 6⟩, ⟨2, 6⟩⟩, true⟩)], 1, 2,
        ⟨1, 1, 2⟩, none, none⟩ : Object) ∈ (Document.parse "[A] k=x\n<bt> y;" "f").objects := by
      decide +kernel
    have hi : unknownTagIssue ∈ valueIssues markupSchema {} "k" "x\n<bt> y"
        ⟨"k", .richText, false, none, false⟩ := by decide +kernel
    have hfix : (⟨"f", ⟨⟨2, 1⟩, ⟨2, 3⟩⟩, "br"⟩ : Correction) ∈ (unknownTagIssue.inFile
        markupSchema.formulas {} "x\n<bt> y" ⟨1, 6⟩ "f" "A.k").corrections := by decide +kernel
    have hvalue : "x\n<br> y".toList =
        (⟨3, 5⟩ : CharRange).replace "br".toList "x\n<bt> y".toList := by decide +kernel
    have ht : (⟨.value, "", "<bt>", ⟨2, 0⟩, 8⟩ : Token) ∈ Token.scan "[A] k=x\n<bt> y;" := by
      decide +kernel
    obtain ⟨output, made, -, -, stays⟩ := value_fix_stays names {} "[A] k=x\n<bt> y;" "f" ho
      mem_cons_self hi hfix hvalue
    refine ⟨_, ?_, _, hfix, output, made, ?_⟩
    · decide +kernel
    · rw [stays _ ht ⟨1, 3⟩ ⟨by decide, by decide, rfl, by decide +kernel⟩]
      decide +kernel

/-- Behind a blank, the name of a tag and the equals sign put in behind it start another
property. -/
theorem value_fix_leaves_value :
    markupSchema.HasWordNames ∧
      ∃ m ∈ (validate markupSchema {} [⟨"f", "[A] k=x < br >;"⟩]).all, ∃ fix ∈ m.corrections,
        Correction.applyAll "[A] k=x < br >;" [fix] = .ok ⟨"[A] k=x < br= >;", 1, []⟩ ∧
          (Document.parse "[A] k=x < br= >;" "f").objects.map (Object.view (·.value)) =
            [("A", [("k", "x <"), ("br", ">")])] := by
  refine ⟨by decide +kernel,
    (plainTagIssue ⟨4, 6⟩).inFile markupSchema.formulas {} "x < br >" ⟨1, 6⟩ "f" "A.k",
    by decide +kernel, ⟨"f", ⟨⟨1, 10⟩, ⟨1, 12⟩⟩, "br="⟩, by decide +kernel, by decide +kernel,
    by decide +kernel⟩

end ModCheck
