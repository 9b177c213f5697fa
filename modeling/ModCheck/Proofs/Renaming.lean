import ModCheck.Proofs.MessagePlaces
import ModCheck.Proofs.Rewording
import ModCheck.Proofs.Writing

/-
  Names that are replaced. A name exchanged for another is scanned as one token again, whatever
  stands around it, if it keeps the mark that may be all that separates it from a name before it,
  or stands behind a bracket (`lexed_renamed`). A correction inside a token that is scanned as one
  token again changes that token and moves the others (`scan_in_token`), and so does one on a whole
  name (`scan_renamed`).
-/

namespace ModCheck

open List
open Text (isBlank)

variable {back front name rest : List Char} {c : Char} {fix : Correction} {i : Nat} {l : Lexeme}
  {mode : ScanMode} {place r : CharRange} {source : String} {t : Token} {us vs : List Token}

/-! ## Exchanging names in a text -/

theorem isNamePart_of_isBlank (h : isBlank c = true) : isNamePart c = false := by
  rw [isNamePart, not_isWordChar_of_isBlank h, not_isWordStart_of_isBlank h]
  rfl

theorem isPlainStart_of_isWordStart (h : Token.isWordStart c = true) : isPlainStart c = true := by
  have hsign := ne_of_isWordStart h
  rw [isPlainStart_iff]
  refine ⟨?_, hsign ';' (by simp), hsign '[' (by simp), hsign '-' (by simp)⟩
  by_contra hblank
  rw [not_isWordStart_of_isBlank (by simpa using hblank)] at h
  exact absurd h (by decide)

theorem isDelimiter_of_isWordStart (h : Token.isWordStart c = true) : isDelimiter c = false := by
  have hblank := (isPlainStart_iff.1 (isPlainStart_of_isWordStart h)).1
  simp [isDelimiter, hblank, ne_of_isWordStart h]

/-- A name that does not go on another one starts with a mark. -/
theorem eq_mark_of_isWordStart (h : Token.isWordStart c = true) (hw : Token.isWordChar c = false) :
    c = '!' := by
  simp only [Token.isWordStart, Token.isWordChar, Bool.or_eq_true, beq_iff_eq] at h hw
  rcases h with (h | h) | h
  · rw [h] at hw
    simp at hw
  · simp [h] at hw
  · exact h

theorem startsProperty_name (hn : IsName name) (hr : rest.head?.any Token.isWordChar = false) :
    startsProperty (name ++ rest) = assigns rest := by
  cases name with
  | nil => exact hn.elim
  | cons c cs =>
    have hdrop : (cs ++ rest).dropWhile Token.isWordChar = rest := by
      rw [dropWhile_append_of_pos hn.2, Lexeme.dropWhile_eq_self hr]
    rw [cons_append, startsProperty, hn.1, hdrop]
    rfl

theorem assigns_name (hn : IsName name) (rest : List Char) : assigns (name ++ rest) = false := by
  cases name with
  | nil => exact hn.elim
  | cons c cs =>
    have hblank := (isPlainStart_iff.1 (isPlainStart_of_isWordStart hn.1)).1
    have hne : c ≠ '=' := by
      rintro rfl
      exact absurd hn.1 (by decide)
    rw [assigns, cons_append, dropWhile_cons_of_neg (by simp [isLineBlank, hblank])]
    simpa using hne

/-- Names before the same text look alike. -/
theorem alike_names {name' : List Char} (hn : IsName name) (hn' : IsName name')
    (hr : rest.head?.any Token.isWordChar = false) : Alike (name ++ rest) (name' ++ rest) := by
  have hfirst : ∀ n : List Char, IsName n →
      ∃ c, (n ++ rest).head? = some c ∧ isPlainStart c = true ∧ isDelimiter c = false := by
    intro n h
    cases n with
    | nil => exact h.elim
    | cons c cs =>
      exact ⟨c, rfl, isPlainStart_of_isWordStart h.1, isDelimiter_of_isWordStart h.1⟩
  obtain ⟨c, hc, hplain, hdelimiter⟩ := hfirst name hn
  obtain ⟨c', hc', hplain', hdelimiter'⟩ := hfirst name' hn'
  refine ⟨⟨c, hc, hplain⟩, ⟨c', hc', hplain'⟩, ?_, ?_, ?_⟩
  · rw [hc, hc', Option.any_some, Option.any_some, hdelimiter, hdelimiter']
  · rw [assigns_name hn, assigns_name hn']
  · rw [startsProperty_name hn hr, startsProperty_name hn' hr]

theorem Lexeme.Formed.isName (h : l.Formed mode) (hk : l.kind = .identifier) : IsName l.text := by
  obtain ⟨gap, kind, text⟩ := l
  subst hk
  exact h.2.1

/-- What ends with a part of a name, right before a character that could go on, is a name itself. -/
theorem Lexeme.Ends.not_isWordChar {d : Char} (form : l.HasForm mode) (h : l.Ends mode (d :: rest))
    (hplain : isPlainStart d = true) (hdelimiter : isDelimiter d = false)
    (hc : l.text.getLast? = some c) (hpart : isNamePart c = true) : Token.isWordChar d = false := by
  have hsigns : ['\n', ';', '[', ']', '='].all (fun c => !isNamePart c) = true := by decide
  have hsign : c ∉ ['\n', ';', '[', ']', '='] := by
    intro hmem
    have := all_eq_true.1 hsigns c hmem
    simp [hpart] at this
  obtain ⟨hblank, hsemicolon, hbracket, hdash⟩ := isPlainStart_iff.1 hplain
  obtain ⟨gap, kind, text⟩ := l
  cases kind <;> simp only [Lexeme.HasForm] at form h hc
  case newline =>
    obtain rfl : c = '\n' := by
      rcases form with rfl | rfl <;> exact (Option.some.inj hc).symm
    exact absurd (by simp) hsign
  case semicolon =>
    obtain rfl : c = ';' := by simpa [form, eq_comm] using hc
    exact absurd (by simp) hsign
  case leftBracket =>
    obtain rfl : c = '[' := by simpa [form, eq_comm] using hc
    exact absurd (by simp) hsign
  case rightBracket =>
    obtain rfl : c = ']' := by simpa [form.1, eq_comm] using hc
    exact absurd (by simp) hsign
  case equals =>
    obtain rfl : c = '=' := by simpa [form.1, eq_comm] using hc
    exact absurd (by simp) hsign
  case comment =>
    have := splitLine_cons_eq_nil.1 h.1
    simp [isLineEnd, ne_break_of_not_isBlank hblank] at this
  case identifier => simpa using h.1
  case value =>
    cases mode with
    | normal =>
      rcases splitWord_cons_eq_nil.1 h.1 with e | ⟨e, -⟩
      · rw [hdelimiter] at e
        exact absurd e (by decide)
      · exact absurd e hdash
    | inValue =>
      rcases splitValue_cons_eq_nil.1 h with e | e | e | ⟨e, -⟩
      · exact absurd e hsemicolon
      · exact absurd e hbracket
      · simp [isLineEnd, ne_break_of_not_isBlank hblank] at e
      · rw [isBlank_of_isGap e] at hblank
        exact absurd hblank (by decide)

/-- What ends right before a name with a part of a name leaves the name its mark. -/
theorem Lexeme.Ends.mark (form : l.HasForm mode) (h : l.Ends mode (name ++ rest)) (hn : IsName name)
    (hc : l.text.getLast? = some c) (hpart : isNamePart c = true) : name.head? = some '!' := by
  cases name with
  | nil => exact hn.elim
  | cons d ds =>
    have hword := h.not_isWordChar form (isPlainStart_of_isWordStart hn.1)
      (isDelimiter_of_isWordStart hn.1) hc hpart
    rw [eq_mark_of_isWordStart hn.1 hword]
    rfl

/-- A part of a name right before a lexeme is the end of the lexeme before it. -/
theorem lexeme_before {ls ms : List Lexeme} (h : Lexed mode (ls ++ l :: ms))
    (hk : l.kind ≠ .endOfFile) (hc : (spell ls ++ l.gap).getLast? = some c)
    (hpart : isNamePart c = true) :
    ∃ init z mode', ls = init ++ [z] ∧ z.text.getLast? = some c ∧ z.Formed mode' ∧
      z.Ends mode' (l.text ++ spell ms) := by
  obtain ⟨last, -, lexed⟩ := (lexed_append (cons_ne_nil _ _)).1 h
  obtain ⟨formed, -, -⟩ := lexed.of_cons (Or.inl hk)
  have hgap : l.gap = [] := by
    by_contra hne
    have hlast : c ∈ l.gap := by
      rw [getLast?_append, getLast?_eq_some_getLast hne] at hc
      rw [← Option.some.inj hc]
      exact getLast_mem hne
    have hmem : c ∈ (splitGap (l.gap ++ l.text)).1 := by rwa [formed.1]
    rw [isNamePart_of_isBlank (mem_splitGap hmem).1] at hpart
    exact absurd hpart (by decide)
  rcases eq_nil_or_concat ls with rfl | ⟨init, z, rfl⟩
  · simp [hgap] at hc
  · rw [concat_eq_append] at h hc ⊢
    rw [append_assoc, singleton_append] at h
    obtain ⟨mode', -, lexed⟩ := (lexed_append (cons_ne_nil _ _)).1 h
    obtain ⟨hz, ends, -⟩ := lexed.of_cons (Or.inr (cons_ne_nil _ _))
    rw [spell_cons, hgap] at ends
    have hlast : z.text.getLast? = some c := by
      rw [hgap, append_nil, spell_append, spell_cons, spell_nil, append_nil, getLast?_append,
        getLast?_append, getLast?_eq_some_getLast hz.2.text_ne.1] at hc
      rw [getLast?_eq_some_getLast hz.2.text_ne.1]
      simpa using hc
    exact ⟨init, z, mode', rfl, hlast, hz, ends⟩

/-- A gap before one text is a gap before another, unless they start with blanks. -/
theorem splitGap_swap {gap cs ds : List Char} {d : Char} (hc : isBlank c = false)
    (hd : isBlank d = false) (h : splitGap (gap ++ c :: cs) = (gap, c :: cs)) :
    splitGap (gap ++ d :: ds) = (gap, d :: ds) := by
  induction gap with
  | nil => exact splitGap_of_not_isBlank hd ds
  | cons g gap ih =>
    rw [cons_append, splitGap] at h ⊢
    rw [isGap_append fun _ _ => by simpa using (ne_break_of_not_isBlank hc).1] at h
    rw [isGap_append fun _ _ => by simpa using (ne_break_of_not_isBlank hd).1]
    split at h
    · next hgap =>
      obtain ⟨h1, h2⟩ := Prod.mk.inj h
      have hmore := ih (Prod.ext (cons_eq_cons.1 h1).2 h2)
      rw [if_pos hgap, hmore]
    · simp at h

theorem splitGap_names {gap name' : List Char} (hn : IsName name) (hn' : IsName name')
    (h : splitGap (gap ++ name) = (gap, name)) : splitGap (gap ++ name') = (gap, name') := by
  cases name with
  | nil => exact hn.elim
  | cons c cs =>
    cases name' with
    | nil => exact hn'.elim
    | cons d ds => exact splitGap_swap hn.head_not_isBlank hn'.head_not_isBlank h

/-- What a token must be so that `name` can stand in its place: a name that starts with a mark only
if the new one does, or a name right behind a bracket. -/
def Renameable (us : List Token) (t : Token) (name : List Char) : Prop :=
  t.kind = .identifier ∧
    ((t.text.toList.head? = some '!' → name.head? = some '!') ∨
      ∃ o, us.getLast? = some o ∧ o.kind = .leftBracket)

theorem lexed_renamed (h : Lexed .normal ((us ++ t :: vs).map Token.lexeme)) (hn : IsName name)
    (hr : Renameable us t name) : Lexed .normal
      (us.map Token.lexeme ++ ⟨t.lead.toList, t.kind, name⟩ :: vs.map Token.lexeme) := by
  rw [map_append] at h
  obtain ⟨hk, hfirst⟩ := hr
  obtain ⟨last, -, lexed⟩ := (lexed_append (cons_ne_nil _ _)).1 h
  obtain ⟨formed, ends, -⟩ := lexed.of_cons (Or.inl (by simp [Token.lexeme, hk]))
  have hold : IsName t.text.toList := formed.isName hk
  have hrest : (spell (vs.map Token.lexeme)).head?.any Token.isWordChar = false := by
    have : t.lexeme.Ends last (spell (vs.map Token.lexeme)) := ends
    simp only [Token.lexeme, hk] at this
    exact this.1
  refine lexed_swap h (cons_ne_nil _ _) (spell_cons _ _) (spell_cons _ _)
    (alike_names hold hn hrest) ?_ ?_
  · intro c hc hpart
    obtain ⟨init, z, mode, hus, hlast, hz, hends⟩ :=
      lexeme_before h (by simp [Token.lexeme, hk]) hc hpart
    rcases hfirst with hmark | ⟨o, ho, hbracket⟩
    · have hbang : ∀ n : List Char, n.head? = some '!' →
          (n ++ spell (vs.map Token.lexeme)).head?.any Token.isWordChar = false := by
        intro n hhead
        obtain ⟨ns, rfl⟩ := head?_eq_some_iff.1 hhead
        exact (by decide : Token.isWordChar '!' = false)
      have hmark' := hends.mark hz.2 hold hlast hpart
      exact ⟨hbang _ hmark', hbang _ (hmark hmark')⟩
    · -- what stands before is a bracket, which is no part of a name
      obtain rfl : o.lexeme = z := by
        have := congrArg getLast? hus
        simpa [ho] using this
      have htext : o.lexeme.text = ['['] := by
        have form := hz.2
        simp only [Token.lexeme, hbracket] at form
        exact form
      rw [htext, getLast?_singleton, Option.some.injEq] at hlast
      rw [← hlast] at hpart
      exact absurd hpart (by decide)
  · intro last' lexed'
    obtain ⟨formed', ends', rest'⟩ := lexed'.of_cons (Or.inl (by simp [Token.lexeme, hk]))
    obtain ⟨hgap, form⟩ := formed'
    simp only [Token.lexeme, hk] at form
    refine .cons ⟨splitGap_names hold hn hgap, ?_⟩ ?_ rest'
    · simp only [hk]
      exact ⟨hn, form.2⟩
    · simp only [Token.lexeme, hk] at ends' ⊢
      exact ends'

/-! ## A correction inside a token -/

theorem isName_of_mem_scan (ht : t ∈ Token.scan source) (hk : t.kind = .identifier) :
    IsName t.text.toList := by
  obtain ⟨us, vs, e⟩ := append_of_mem ht
  have lexed := scan_lexed source
  rw [e, map_append] at lexed
  obtain ⟨mode, -, lexed⟩ := (lexed_append (cons_ne_nil _ _)).1 lexed
  obtain ⟨formed, -, -⟩ := lexed.of_cons (Or.inl (by simp [Token.lexeme, hk]))
  exact formed.isName hk

theorem IsName.not_mem_break (h : IsName name) : '\n' ∉ name := by
  intro hmem
  have := h.isNamePart hmem
  exact absurd this (by decide)

/-- A text with the characters of a range replaced. -/
def CharRange.replace (r : CharRange) (text value : List Char) : List Char :=
  value.take r.start ++ (text ++ value.drop r.stop)

theorem CharRange.replace_append (hr : r.start ≤ r.stop)
    (h : r.stop ≤ front.length) (text back : List Char) :
    r.replace text (front ++ back) = r.replace text front ++ back := by
  rw [CharRange.replace, CharRange.replace, take_append_of_le_length (Nat.le_trans hr h),
    drop_append_of_le_length h]
  simp

/-- Every place in a line that does not end with a carriage return has an address. -/
theorem addressable_in_line {line : List Char} (hone : '\n' ∉ line)
    (hlast : (front ++ line).getLast? ≠ some '\r') (i : Nat) (back : List Char) :
    Addressable (front ++ line.take i) (line.drop i ++ back) := by
  by_cases hdrop : line.drop i = []
  · rw [take_of_length_le (drop_eq_nil_iff.1 hdrop)]
    exact Or.inl hlast
  · have hc := getLast?_eq_some_getLast hdrop
    refine addressable_of_last (fun hmem => hone (mem_of_mem_drop hmem)) hc ?_ _ _
    intro hr
    apply hlast
    rw [← take_append_drop i line, ← append_assoc, getLast?_append_of_ne_nil _ hdrop, hc, hr]

theorem take_append_drop_take (value : List Char) {j : Nat} (h : i ≤ j) :
    value.take i ++ (value.take j).drop i = value.take j := by
  have := take_append_drop i (value.take j)
  rwa [take_take, Nat.min_eq_left h] at this

theorem drop_take_append_drop (value : List Char) {j : Nat} (h : i ≤ j) :
    (value.take j).drop i ++ value.drop j = value.drop i := by
  have hsplit : value.take i ++ ((value.take j).drop i ++ value.drop j) =
      value.take i ++ value.drop i := by
    rw [← append_assoc, take_append_drop_take value h, take_append_drop, take_append_drop]
  exact append_cancel_left hsplit

/-- A correction on a range of a line replaces these characters. -/
theorem applyAll_in_line {line : List Char} (hsource : source.toList = front ++ (line ++ back))
    (hone : '\n' ∉ line) (hlast : (front ++ line).getLast? ≠ some '\r') (hr : r.start ≤ r.stop)
    (hspan : fix.span =
      ⟨Position.after ⟨1, 0⟩ (front ++ line.take r.start),
        Position.after ⟨1, 0⟩ (front ++ line.take r.stop)⟩) :
    Correction.applyAll source [fix] = .ok ⟨String.ofList (front ++
      (r.replace fix.replacement.toList line ++ back)), 1, []⟩ := by
  have hold : front ++ line.take r.start ++ (line.take r.stop).drop r.start =
      front ++ line.take r.stop := by
    rw [append_assoc, take_append_drop_take _ hr]
  have hrest : (line.take r.stop).drop r.start ++ (line.drop r.stop ++ back) =
      line.drop r.start ++ back := by
    rw [← append_assoc, drop_take_append_drop _ hr]
  have hcut : source.toList = (front ++ line.take r.start) ++
      ((line.take r.stop).drop r.start ++ (line.drop r.stop ++ back)) := by
    rw [hrest, append_assoc, ← append_assoc (line.take _), take_append_drop, hsource]
  rw [applyAll_single (c := fix) hcut (by rw [hrest]; exact addressable_in_line hone hlast _ _)
    (by rw [hold]; exact addressable_in_line hone hlast _ _) (by rw [hold, hspan])]
  simp [CharRange.replace]

/-- A correction inside a token that is scanned as one token again. -/
theorem scan_in_token (hscan : Token.scan source = us ++ t :: vs) (solid : t.kind.isSolid = true)
    (hplace : place.start ≤ place.stop)
    (hspan : fix.span = ⟨t.start.after (t.text.toList.take place.start),
      t.start.after (t.text.toList.take place.stop)⟩)
    (hline : '\n' ∉ place.replace fix.replacement.toList t.text.toList)
    (lexed : Lexed .normal (us.map Token.lexeme ++ ⟨t.lead.toList, t.kind,
      place.replace fix.replacement.toList t.text.toList⟩ :: vs.map Token.lexeme)) :
    ∃ output, Correction.applyAll source [fix] = .ok ⟨output, 1, []⟩ ∧
      Token.scan output = (Token.scan source).map (t.rewording
        (String.ofList (place.replace fix.replacement.toList t.text.toList))) := by
  have laid := laid_scan source
  have whole := written_scan source
  rw [hscan] at laid whole
  obtain ⟨sane, start, -, -⟩ := (laid_append.1 laid).2
  rw [nil_append] at start
  have hsolid := sane.solid solid
  have hsource : source.toList =
      (written us ++ t.lead.toList) ++ (t.text.toList ++ written vs) := by
    rw [← whole]
    simp [written_append]
  refine ⟨_, applyAll_in_line hsource hsolid.oneLine ?_ hplace ?_, ?_⟩
  · obtain ⟨c, hc, hne⟩ := hsolid.exists_last
    rw [getLast?_append, hc]
    simpa using hne
  · rw [hspan, start, ← Position.after_append, ← Position.after_append]
  · rw [append_assoc]
    exact scan_reworded hscan solid hline lexed

/-- Replacing a name by another changes one token and moves those behind it. -/
theorem scan_renamed (hscan : Token.scan source = us ++ t :: vs) (hspan : fix.span = t.span)
    (hn : IsName fix.replacement.toList) (hr : Renameable us t fix.replacement.toList) :
    ∃ output, Correction.applyAll source [fix] = .ok ⟨output, 1, []⟩ ∧
      Token.scan output = (Token.scan source).map (t.rewording fix.replacement) := by
  have kind : t.kind.isSolid = true := by
    rw [hr.1]
    rfl
  have solid := ((laid_scan source).sane (t := t) (by simp [hscan])).solid kind
  have lexed := scan_lexed source
  rw [hscan] at lexed
  have whole : (⟨0, t.text.toList.length⟩ : CharRange).replace fix.replacement.toList
      t.text.toList = fix.replacement.toList := by
    simp [CharRange.replace]
  have made := @scan_in_token fix ⟨0, t.text.toList.length⟩ _ _ _ _ hscan kind (Nat.zero_le _)
  rw [whole, String.ofList_toList] at made
  refine made ?_ hn.not_mem_break (lexed_renamed lexed hn hr)
  rw [hspan, take_zero, take_length, ← solid.stop_eq]
  rfl

end ModCheck
