import ModCheck.Proofs.Closing
import ModCheck.Proofs.Renaming

/-
  No value holds the start of another property. A value is put together from tokens, and a blank in
  it stands before a token, inside a token that was cut as a value, or is the line feed of a line
  break. Behind the last two the scanner has looked for a property; before a name that an equals
  sign follows, reading the value stops. Main statement: `holdsProperty_value`.
-/

namespace ModCheck

open List
open Text (isBlank)

variable {c : Char} {cs gap text : List Char} {kind : TokenKind} {l : Lexeme} {mode : ScanMode}
  {more rest ts used : List Token} {source : String} {t : Token}

/-! ## Blanks in a text -/

theorem startsProperty_of_isBlank (hc : isBlank c = true) (cs : List Char) :
    startsProperty (c :: cs) = false := by
  rw [startsProperty, not_isWordStart_of_isBlank hc, Bool.false_and]

theorem startsProperty_of_splitGap (h : startsProperty (splitGap cs).2 = false) :
    startsProperty cs = false := by
  cases cs with
  | nil => rfl
  | cons c cs =>
    rw [splitGap] at h
    split at h
    · next hgap => exact startsProperty_of_isBlank (isBlank_of_isGap hgap) cs
    · exact h

/-- What the scanner takes as one value holds no property. -/
theorem holdsProperty_of_splitValue (h : splitValue cs = (cs, [])) : holdsProperty cs = false := by
  induction cs with
  | nil => rfl
  | cons c cs ih =>
    have hne : (splitValue (c :: cs)).1 ≠ [] := by simp [h]
    have hmore : splitValue cs = (cs, []) := by
      have e := (splitValue_cons_of_ne_nil hne).1
      rw [h] at e
      obtain ⟨e₁, e₂⟩ := Prod.mk.inj e
      exact Prod.ext (cons_eq_cons.1 e₁).2.symm e₂.symm
    refine holdsProperty_cons.2 ⟨fun hblank => ?_, ih hmore⟩
    have hstop := mt splitValue_cons_eq_nil.2 hne
    simp only [not_or, not_and] at hstop
    obtain ⟨-, -, hline, hgap⟩ := hstop
    have hstart := (hgap ((isGap_or_isLineEnd cs hblank).resolve_right hline)).1
    exact startsProperty_of_splitGap (Bool.not_eq_true _ ▸ hstart)

theorem holdsProperty_append_of_not_isBlank (h : ∀ c ∈ text, isBlank c = false) (rest : List Char) :
    holdsProperty (text ++ rest) = holdsProperty rest := by
  induction text with
  | nil => rfl
  | cons c cs ih =>
    rw [cons_append, holdsProperty, h c mem_cons_self]
    exact ih fun d hd => h d (mem_cons_of_mem _ hd)

theorem holdsProperty_suffix {ds : List Char} (h : holdsProperty (cs ++ ds) = false) :
    holdsProperty ds = false := by
  induction cs with
  | nil => exact h
  | cons c cs ih => exact ih (holdsProperty_cons.1 h).2

theorem startsProperty_of_gap (hgap : ∀ c ∈ gap, isBlank c = true) (hne : gap ≠ [])
    (h : holdsProperty (gap ++ text) = false) : startsProperty text = false := by
  rw [← dropLast_append_getLast hne, append_assoc] at h
  exact (holdsProperty_cons.1 (holdsProperty_suffix h)).1 (hgap _ (getLast_mem hne))

/-- A text goes on without a property behind a place where a value can end. -/
theorem holdsProperty_append_stop {rest : List Char} (h : holdsProperty cs = false)
    (last : ∀ c, cs.getLast? = some c → isBlank c = false) (hstop : (splitValue rest).1 = [])
    (hrest : holdsProperty rest = false) : holdsProperty (cs ++ rest) = false := by
  induction cs with
  | nil => exact hrest
  | cons c cs ih =>
    obtain ⟨hstart, hmore⟩ := holdsProperty_cons.1 h
    rw [cons_append]
    refine holdsProperty_cons.2 ⟨fun hblank => ?_, ih hmore fun d hd => ?_⟩
    · have hcs : cs ≠ [] := by
        rintro rfl
        rw [last c rfl] at hblank
        exact absurd hblank (by decide)
      rw [startsProperty_append_stop hcs hstop]
      exact hstart hblank
    · apply last d
      rw [getLast?_cons, hd]
      rfl

theorem holdsProperty_gap (hgap : ∀ c ∈ gap, isBlank c = true)
    (hstart : gap ≠ [] → startsProperty cs = false) (h : holdsProperty cs = false) :
    holdsProperty (gap ++ cs) = false := by
  induction gap with
  | nil => exact h
  | cons g gap ih =>
    have hcs := hstart (cons_ne_nil _ _)
    have hgap' : ∀ c ∈ gap, isBlank c = true := fun c hc => hgap c (mem_cons_of_mem _ hc)
    refine holdsProperty_cons.2 ⟨fun _ => ?_, ih hgap' fun _ => hcs⟩
    cases gap with
    | nil => exact hcs
    | cons d gap => exact startsProperty_of_isBlank (hgap' d mem_cons_self) _

/-- An equals sign behind blanks is the first character that is none. -/
theorem eq_equals_of_assigns (hgap : ∀ d ∈ gap, isBlank d = true) (hc : isLineBlank c = false)
    (h : assigns (gap ++ c :: cs) = true) : c = '=' := by
  replace h : ((gap ++ c :: cs).dropWhile isLineBlank).head? = some '=' := by
    simpa [assigns] using h
  induction gap with
  | nil =>
    rw [nil_append, dropWhile_cons_of_neg (by simp [hc])] at h
    exact Option.some.inj h
  | cons g gap ih =>
    rw [cons_append] at h
    by_cases hg : isLineBlank g = true
    · rw [dropWhile_cons_of_pos hg] at h
      exact ih (fun d hd => hgap d (mem_cons_of_mem _ hd)) h
    · rw [dropWhile_cons_of_neg hg] at h
      have hblank := hgap g mem_cons_self
      rw [Option.some.inj h] at hblank
      exact absurd hblank (by decide)

/-- Behind blanks, a value ends at a sign, at the end of the line or before a property. -/
theorem splitValue_gap (hgap : splitGap (gap ++ c :: cs) = (gap, c :: cs))
    (h : (splitValue (gap ++ c :: cs)).1 = []) :
    c ∈ [';', '[', '\n', '\r'] ∨ startsProperty (c :: cs) = true := by
  induction gap with
  | nil =>
    rcases splitValue_cons_eq_nil.1 h with e | e | e | ⟨e, -⟩
    · simp [e]
    · simp [e]
    · left
      simp only [isLineEnd, Bool.or_eq_true, Bool.and_eq_true, beq_iff_eq] at e
      rcases e with e | e
      · simp [e]
      · simp [e.1]
    · rw [Lexeme.splitGap_not_isGap hgap] at e
      exact absurd e (by decide)
  | cons g gap ih =>
    rw [cons_append] at h hgap
    rw [splitGap] at hgap
    split at hgap
    · next hg =>
      obtain ⟨e₁, e₂⟩ := Prod.mk.inj hgap
      have hmore : splitGap (gap ++ c :: cs) = (gap, c :: cs) :=
        Prod.ext (cons_eq_cons.1 e₁).2 e₂
      obtain ⟨hs, hb, -⟩ := isGap_ne hg
      rcases splitValue_cons_eq_nil.1 h with e | e | e | ⟨-, e | e⟩
      · exact absurd e hs
      · exact absurd e hb
      · rw [isGap_eq_false_of_isLineEnd e] at hg
        exact absurd hg (by decide)
      · rw [hmore] at e
        exact Or.inr e
      · exact ih hmore e
    · simp at hgap

/-! ## Lexemes -/

theorem Lexeme.Formed.gap_isBlank (h : l.Formed mode) : ∀ c ∈ l.gap, isBlank c = true := by
  intro c hc
  have hmem : c ∈ (splitGap (l.gap ++ l.text)).1 := by rwa [h.1]
  exact (mem_splitGap hmem).1

/-- Outside a value, only an equals sign starts with one. -/
theorem Lexeme.HasForm.kind_eq_equals (form : (Lexeme.mk gap kind ('=' :: cs)).HasForm .normal) :
    kind = .equals := by
  cases kind <;> simp only [Lexeme.HasForm] at form
  case newline => simp at form
  case semicolon => simp at form
  case leftBracket => simp at form
  case rightBracket => simp at form
  case equals => rfl
  case comment => simp [IsComment] at form
  case identifier => exact absurd form.1.1 (by decide)
  case value => exact absurd form.1 (by simp)

/-- Outside a value, only a name starts like one. -/
theorem Lexeme.HasForm.kind_eq_identifier (form : (Lexeme.mk gap kind (c :: cs)).HasForm .normal)
    (hc : Token.isWordStart c = true) : kind = .identifier := by
  have sign := ne_of_isWordStart hc
  cases kind <;> simp only [Lexeme.HasForm] at form
  case newline =>
    rcases form with e | e
    · exact absurd (cons_eq_cons.1 e).1 (sign _ (by decide))
    · exact absurd (cons_eq_cons.1 e).1 (sign _ (by decide))
  case semicolon => exact absurd (cons_eq_cons.1 form).1 (sign _ (by decide))
  case leftBracket => exact absurd (cons_eq_cons.1 form).1 (sign _ (by decide))
  case rightBracket => exact absurd (cons_eq_cons.1 form.1).1 (sign _ (by decide))
  case equals => exact absurd (cons_eq_cons.1 form.1).1 (sign _ (by decide))
  case comment =>
    obtain ⟨⟨ds, e, -⟩, -⟩ := form
    exact absurd (cons_eq_cons.1 e).1 (sign _ (by decide))
  case identifier => rfl
  case value =>
    rw [form.2.1] at hc
    exact absurd hc (by decide)

/-- The signs that end a value start no other token. -/
theorem Lexeme.HasForm.not_mem_signs (form : (Lexeme.mk gap kind (c :: cs)).HasForm .normal)
    (solid : kind.isSolid = true) (hs : kind ≠ .semicolon) (hb : kind ≠ .leftBracket) :
    c ∉ [';', '[', '\n', '\r'] := by
  cases kind <;> simp only [Lexeme.HasForm] at form
  case newline => exact absurd solid Bool.false_ne_true
  case comment => exact absurd solid Bool.false_ne_true
  case semicolon => exact absurd rfl hs
  case leftBracket => exact absurd rfl hb
  case rightBracket =>
    rw [(cons_eq_cons.1 form.1).1]
    decide
  case equals =>
    rw [(cons_eq_cons.1 form.1).1]
    decide
  case identifier =>
    intro hc
    have hsign : c ∈ [';', '[', ']', '=', '-', '\n', '\r'] := by
      simp only [mem_cons, not_mem_nil] at hc ⊢
      rcases hc with h | h | h | h <;> simp [h]
    exact absurd rfl (ne_of_isWordStart form.1.1 c hsign)
  case value =>
    intro hc
    refine form.1 ?_
    simp only [mem_cons, not_mem_nil, or_false] at hc ⊢
    rcases hc with h | h | h | h <;> simp [h]

/-- Outside a value, a token has no blanks. -/
theorem Lexeme.Formed.not_isBlank (h : l.Formed .normal) (solid : l.kind.isSolid = true) :
    ∀ c ∈ l.text, isBlank c = false := by
  have form := h.2
  have hsolid := h.solidText solid
  obtain ⟨gap, kind, text⟩ := l
  intro c hc
  cases kind <;> simp only [Lexeme.HasForm] at form
  case newline => exact absurd solid Bool.false_ne_true
  case comment => exact absurd solid Bool.false_ne_true
  case semicolon => exact hsolid.first c (by simp_all)
  case leftBracket => exact hsolid.first c (by simp_all)
  case rightBracket => exact hsolid.first c (by simp_all)
  case equals => exact hsolid.first c (by simp_all)
  case identifier => exact form.1.not_isBlank c hc
  case value => exact form.not_isBlank hsolid.first c hc

theorem Lexeme.Formed.equals_of_assigns (h : l.Formed .normal) {rest : List Char}
    (ha : assigns (l.gap ++ (l.text ++ rest)) = true) : l.kind = .equals := by
  have hblank := h.gap_isBlank
  obtain ⟨gap, kind, text⟩ := l
  obtain ⟨c, cs, rfl⟩ := exists_cons_of_ne_nil h.2.text_ne.1
  have hc : isLineBlank c = false := by
    have hgap := Lexeme.splitGap_not_isGap h.1
    simp only [isGap, Bool.or_eq_false_iff] at hgap
    exact hgap.1
  obtain rfl := eq_equals_of_assigns hblank hc ha
  exact h.2.kind_eq_equals

/-- Where blanks and an equals sign follow, the next lexeme is one. -/
theorem Lexed.head_of_assigns {ls : List Lexeme} (h : Lexed .normal (l :: ls))
    (ha : assigns (spell (l :: ls)) = true) : l.kind = .equals := by
  rw [spell_cons] at ha
  cases h with
  | @stop mode gap hgap =>
    have hend : assigns gap = true := by simpa using ha
    rw [assigns, beq_iff_eq] at hend
    have hmem : '=' ∈ (splitGap gap).1 := by
      rw [hgap]
      exact (dropWhile_sublist isLineBlank).mem (mem_of_mem_head? hend)
    exact absurd (mem_splitGap hmem).1 (by decide)
  | cons formed ends rest => exact formed.equals_of_assigns ha

/-! ## Tokens of a value -/

/-- How the text of a value goes on before the tokens `ts`: with the first of them, or it or its
line ends. -/
inductive GoesOn (ts : List Token) (text : List Char) : Prop
  | stop (h : text = [] ∨ text.head? = some '\n')
  | token {u : Token} {us : List Token} {rest : List Char} (hts : ts = u :: us) (sane : u.Sane)
      (solid : u.kind.isSolid = true) (h : text = u.lead.toList ++ (u.text.toList ++ rest))

theorem goesOn {pre : List Char} (laid : Laid pre ts)
    (hk : ∀ t ∈ ts, t.kind = .newline ∨ t.kind.isSolid = true) :
    GoesOn ts (joinTokensFrom (Position.after ⟨1, 0⟩ pre).line (valueTokens ts)) := by
  cases ts with
  | nil => exact .stop (Or.inl rfl)
  | cons t ts =>
    obtain ⟨sane, start, -, laid⟩ := laid
    rcases hk t mem_cons_self with hn | hs
    · by_cases hv : valueTokens ts = []
      · have ev : valueTokens (t :: ts) = valueTokens ts := by simp [valueTokens, hn]
        exact .stop (Or.inl (by rw [ev, hv]; rfl))
      · exact .stop (Or.inr (by rw [joinTokensFrom_newline sane hn laid hv]; rfl))
    · exact .token rfl sane hs (joinTokensFrom_solid sane start hs)

theorem splitValue_of_break (h : text = [] ∨ text.head? = some '\n') :
    (splitValue text).1 = [] := by
  rcases h with rfl | h
  · rfl
  · obtain ⟨cs, rfl⟩ := head?_eq_some_iff.1 h
    exact splitValue_cons_eq_nil.2 (by simp [isLineEnd])

/-- An assignment starts where a name is followed by an equals sign. -/
theorem startsAssignment_of_assigns (ht : t.kind = .identifier) (hts : ts ≠ [])
    (lexed : Lexed .normal (ts.map Token.lexeme)) (h : assigns (written ts) = true) :
    startsAssignment (t :: ts) = true := by
  obtain ⟨u, us, rfl⟩ := exists_cons_of_ne_nil hts
  rw [← spell_map_lexeme] at h
  have hkind : u.kind = .equals := lexed.head_of_assigns h
  rw [startsAssignment, ht, hkind]
  rfl

namespace GoesOn

variable {ts more : List Token} {text : List Char} (goes : GoesOn ts text)
include goes

/-- A name that ends in the file ends in the value. -/
theorem head_not_isWordChar (h : (written (ts ++ more)).head?.any Token.isWordChar = false) :
    text.head?.any Token.isWordChar = false := by
  cases goes with
  | stop hstop =>
    cases text with
    | nil => rfl
    | cons c cs => exact head_not_isWordChar_of_stop (splitValue_of_break hstop)
  | @token u us rest hts sane solid htext =>
    have hne : u.lead.toList ++ u.text.toList ≠ [] := by simp [(sane.solid solid).ne_nil]
    rw [hts, cons_append, written_cons, ← append_assoc, head?_append_of_ne_nil _ hne] at h
    rwa [htext, ← append_assoc, head?_append_of_ne_nil _ hne]

/-- No equals sign follows a name that starts no assignment. -/
theorem assigns_eq_false (lexed : Lexed .normal ((ts ++ more).map Token.lexeme)) (hmore : more ≠ [])
    {t : Token} (ht : t.kind = .identifier) (ha : startsAssignment (t :: (ts ++ more)) = false) :
    assigns text = false := by
  cases goes with
  | stop hstop => simpa [assigns] using not_equals_of_stop (splitValue_of_break hstop)
  | @token u us rest hts sane solid htext =>
    by_contra h
    rw [Bool.not_eq_false] at h
    subst hts
    obtain ⟨formed, -, -⟩ := lexed.of_cons (Or.inr (by simp [hmore]))
    rw [htext] at h
    have hkind : u.kind = .equals := formed.equals_of_assigns h
    rw [cons_append, startsAssignment, ht, hkind] at ha
    exact absurd ha (by decide)

/-- Where a value ends in the file, its text or its line ends. -/
theorem breaks (lexed : Lexed .normal ((ts ++ more).map Token.lexeme))
    (hmore : more ≠ []) (run : Runs ts more) (inner : Inner ts)
    (h : (splitValue (written (ts ++ more))).1 = []) : text = [] ∨ text.head? = some '\n' := by
  cases goes with
  | stop hstop => exact hstop
  | @token u us rest hts sane solid htext =>
    -- the token would be a sign that ends the value, or the name of the next property
    exfalso
    subst hts
    obtain ⟨formed, ends, behind⟩ := lexed.of_cons (Or.inr (by simp [hmore]))
    obtain ⟨hs, hc, ha, -⟩ := run
    have hb := (inner u mem_cons_self).1
    obtain ⟨c, cs, hcs⟩ := exists_cons_of_ne_nil (sane.solid solid).ne_nil
    have form := formed.2
    rw [Token.lexeme, hcs] at form
    have hgap := (splitGap_append_iff _ _ (written (us ++ more)) formed.2.text_ne.1
      formed.2.text_ne.2).2 formed.1
    simp only [Token.lexeme, hcs] at hgap
    rw [cons_append, written_cons, hcs] at h
    rcases splitValue_gap hgap h with hsign | hstart
    · exact form.not_mem_signs solid hs hb hsign
    · have hword : Token.isWordStart c = true := by
        rw [startsProperty, Bool.and_eq_true] at hstart
        exact hstart.1
      have hkind : u.kind = .identifier := form.kind_eq_identifier hword
      have hname : IsName u.text.toList := formed.isName hkind
      have hword' : (written (us ++ more)).head?.any Token.isWordChar = false := by
        rw [← spell_map_lexeme]
        simp only [Token.lexeme, hkind] at ends
        exact ends.1
      have hequals : assigns (written (us ++ more)) = true := by
        rw [← startsProperty_name hname hword', hcs]
        exact hstart
      have hnormal : Lexed .normal ((us ++ more).map Token.lexeme) := by
        rwa [Token.lexeme, hkind] at behind
      rw [startsAssignment_of_assigns hkind (by simp [hmore]) hnormal hequals] at ha
      exact absurd ha (by decide)

end GoesOn

/-- A token that was cut as a value, where the value it belongs to goes on over it. -/
theorem value_token (lexed : Lexed .inValue ((t :: (ts ++ more)).map Token.lexeme))
    (hmore : more ≠ []) (run : Runs (t :: ts) more) (inner : Inner (t :: ts))
    (solid : t.kind.isSolid = true) :
    t.kind = .value ∧ IsValue t.text.toList ∧
      (t.lead.toList ≠ [] → startsProperty t.text.toList = false) ∧
      (splitValue (written (ts ++ more))).1 = [] ∧
      Lexed .normal ((ts ++ more).map Token.lexeme) := by
  obtain ⟨formed, ends, behind⟩ := lexed.of_cons (Or.inr (by simp [hmore]))
  have form := formed.2
  have hb := (inner t mem_cons_self).1
  rw [spell_map_lexeme] at ends
  simp only [Lexeme.HasForm, Lexeme.Ends, Token.lexeme] at form ends
  cases hkind : t.kind with
  | value =>
    rw [Token.lexeme, hkind] at behind
    simp only [hkind] at form ends
    exact ⟨rfl, form.1, form.2, ends, behind⟩
  | identifier =>
    -- the scanner has seen a property here, and so does the reader
    rw [Token.lexeme, hkind] at behind
    simp only [hkind] at ends
    have ha := run.2.2.1
    rw [startsAssignment_of_assigns hkind (by simp [hmore]) behind (ends.2 trivial)] at ha
    exact absurd ha (by decide)
  | newline => simp [hkind, TokenKind.isSolid] at solid
  | comment => simp [hkind, TokenKind.isSolid] at solid
  | endOfFile => simp [hkind, TokenKind.isSolid] at solid
  | semicolon => exact absurd hkind run.1
  | leftBracket => exact absurd hkind hb
  | rightBracket => simp [hkind] at form
  | equals => simp [hkind] at form

/-- A token of a value and the text behind it hold no property. Behind blanks, and outside of what
was cut as a value, they start none either. -/
theorem whole_token (lexed : Lexed mode ((t :: (ts ++ more)).map Token.lexeme)) (hmore : more ≠ [])
    (run : Runs (t :: ts) more) (inner : Inner (t :: ts)) (solid : t.kind.isSolid = true)
    (goes : GoesOn ts text) (hrest : holdsProperty text = false) :
    holdsProperty (t.text.toList ++ text) = false ∧
      (mode = .normal ∨ t.lead.toList ≠ [] → startsProperty (t.text.toList ++ text) = false) := by
  have lexed' := lexed
  obtain ⟨formed, ends, behind⟩ := lexed'.of_cons (Or.inr (by simp [hmore]))
  have hsolid : SolidText t.text.toList := formed.solidText solid
  rw [spell_map_lexeme] at ends
  cases mode with
  | normal =>
    have hplain : ∀ c ∈ t.text.toList, isBlank c = false := formed.not_isBlank solid
    refine ⟨by rw [holdsProperty_append_of_not_isBlank hplain, hrest], fun _ => ?_⟩
    by_cases hkind : t.kind = .identifier
    · have hname : IsName t.text.toList := formed.isName hkind
      simp only [Token.lexeme, hkind] at ends
      rw [Token.lexeme, hkind] at behind
      rw [startsProperty_name hname (goes.head_not_isWordChar ends.1)]
      exact goes.assigns_eq_false behind hmore hkind run.2.2.1
    · obtain ⟨c, cs, hcs⟩ := exists_cons_of_ne_nil hsolid.ne_nil
      have form := formed.2
      rw [Token.lexeme, hcs] at form
      rw [hcs, cons_append, startsProperty, Bool.and_eq_false_imp]
      exact fun hc => absurd (form.kind_eq_identifier hc) hkind
  | inValue =>
    obtain ⟨-, hvalue, hgap, hstop, behind⟩ := value_token lexed hmore run inner solid
    have inner' : Inner ts := fun u hu => inner u (mem_cons_of_mem _ hu)
    have hbreak := splitValue_of_break (goes.breaks behind hmore run.2.2.2 inner' hstop)
    refine ⟨holdsProperty_append_stop ?_ hsolid.last hbreak hrest, ?_⟩
    · obtain ⟨c, cs, hcs⟩ := exists_cons_of_ne_nil hsolid.ne_nil
      have hfirst := hsolid.first
      rw [hcs] at hvalue hfirst ⊢
      refine holdsProperty_cons.2 ⟨fun hblank => ?_, holdsProperty_of_splitValue hvalue.2⟩
      rw [hfirst c rfl] at hblank
      exact absurd hblank (by decide)
    · rintro (h | h)
      · exact absurd h (by decide)
      · rw [startsProperty_append_stop hsolid.ne_nil hbreak]
        exact hgap h

/-- The text of the tokens that a value goes on over holds no property. -/
theorem whole_tokens {pre : List Char} (lexed : Lexed mode ((used ++ more).map Token.lexeme))
    (hmore : more ≠ []) (laid : Laid pre used) (run : Runs used more) (inner : Inner used) :
    holdsProperty (joinTokensFrom (Position.after ⟨1, 0⟩ pre).line (valueTokens used)) = false ∧
      (mode = .normal → startsProperty
        (joinTokensFrom (Position.after ⟨1, 0⟩ pre).line (valueTokens used)) = false) := by
  induction used generalizing mode pre with
  | nil => exact ⟨rfl, fun _ => rfl⟩
  | cons t ts ih =>
    have hk := fun u hu => run.solid inner (t := u) hu
    have inner' : Inner ts := fun u hu => inner u (mem_cons_of_mem _ hu)
    have lexed' := lexed
    obtain ⟨formed, -, behind⟩ := lexed'.of_cons (Or.inr (by simp [hmore]))
    obtain ⟨sane, start, -, laid⟩ := laid
    obtain ⟨hrest, hstart⟩ := ih behind laid run.2.2.2 inner'
    rcases hk t mem_cons_self with hn | hs
    · by_cases hv : valueTokens ts = []
      · have ev : valueTokens (t :: ts) = [] := by
          rw [← hv]
          simp [valueTokens, hn]
        rw [ev]
        exact ⟨rfl, fun _ => rfl⟩
      · rw [joinTokensFrom_newline sane hn laid hv]
        refine ⟨holdsProperty_cons.2 ⟨fun _ => hstart ?_, hrest⟩, fun _ => ?_⟩
        · rw [Token.lexeme, hn]
          rfl
        · exact startsProperty_of_isBlank (by decide) _
    · have goes := goesOn laid fun u hu => hk u (mem_cons_of_mem _ hu)
      obtain ⟨hwhole, hfirst⟩ := whole_token lexed hmore run inner hs goes hrest
      have hgap : ∀ c ∈ t.lead.toList, isBlank c = true := formed.gap_isBlank
      rw [joinTokensFrom_solid sane start hs]
      refine ⟨holdsProperty_gap hgap (fun hne => hfirst (Or.inr hne)) hwhole, fun hm => ?_⟩
      by_cases hlead : t.lead.toList = []
      · have hstart := hfirst (Or.inl hm)
        rw [hlead] at hstart ⊢
        exact hstart
      · obtain ⟨g, gap, e⟩ := exists_cons_of_ne_nil hlead
        rw [e] at hgap ⊢
        exact startsProperty_of_isBlank (hgap g mem_cons_self) _

/-! ## Values of a file -/

theorem Runs.append {after : List Token} (run : Runs used rest) (ends : SectionEnds after) :
    Runs used (rest ++ after) := by
  induction used with
  | nil => trivial
  | cons t ts ih =>
    obtain ⟨hs, hc, ha, run⟩ := run
    refine ⟨hs, hc, ?_, ih run⟩
    rw [← append_assoc]
    by_cases hne : ts ++ rest = []
    · rw [hne]
      cases after with
      | nil => rfl
      | cons u us => rcases ends u rfl with hu | hu <;> simp [startsAssignment, hu]
    · obtain ⟨u, us, e⟩ := exists_cons_of_ne_nil hne
      rw [e] at ha ⊢
      exact (startsAssignment_congr t rfl).trans ha

theorem runs_append {us : List Token} :
    Runs (ts ++ us) rest ↔ Runs ts (us ++ rest) ∧ Runs us rest := by
  induction ts with
  | nil => simp [Runs]
  | cons t ts ih =>
    simp only [cons_append, Runs, append_assoc]
    tauto

theorem scan_getLast? (source : String) :
    ∃ t, (Token.scan source).getLast? = some t ∧ t.kind = .endOfFile := by
  obtain ⟨init, gap, e, -⟩ := (scan_lexed source).eq_append
  have hlast := congrArg getLast? e
  rw [getLast?_map, getLast?_concat, Option.map_eq_some_iff] at hlast
  obtain ⟨t, ht, hlexeme⟩ := hlast
  exact ⟨t, ht, congrArg Lexeme.kind hlexeme⟩

/-- Where an assignment stands among the tokens of a file. -/
structure Placed (source : String) (key equals : Token) (value : List Token)
    (us used more : List Token) : Prop where
  scan : Token.scan source = us ++ key :: equals :: (used ++ more)
  key : key.kind = .identifier
  equals : equals.kind = .equals
  value : value = valueTokens used
  run : Runs used more
  inner : Inner used
  more : more ≠ []

theorem exists_placed {b : Block} (hb : b ∈ blocksOf (Token.scan source)) {key equals : Token}
    {value : List Token} {ending : ValueClose} {due : Bool}
    (h : .assignment key equals value ending due ∈ b.statements) :
    ∃ us used more, Placed source key equals value us used more := by
  obtain ⟨hkey, hequals, us, vs, after, rest, hscan, inner, ends, read⟩ := exists_assignment hb h
  obtain ⟨used, more, rfl, hvalue, run⟩ := read.exists_used
  rw [append_assoc] at hscan
  have inner := inner.of_append.1
  refine ⟨us, used, more ++ after, hscan, hkey, hequals, hvalue, run.append ends, inner,
    fun hnil => ?_⟩
  -- the file ends with a token that no section has
  obtain ⟨t, hlast, hend⟩ := scan_getLast? source
  have esplit : Token.scan source = (us ++ [key]) ++ equals :: used := by
    rw [hscan, hnil]
    simp
  rw [esplit, getLast?_append_of_ne_nil _ (cons_ne_nil _ _)] at hlast
  rcases mem_cons.1 (mem_of_getLast? hlast) with rfl | ht
  · rw [hequals] at hend
    exact absurd hend (by decide)
  · exact (inner t ht).2 hend

section

variable {source : String} {key equals : Token} {value us used more : List Token}
  (placed : Placed source key equals value us used more)
include placed

/-- What follows the equals sign is scanned as a value. -/
theorem Placed.lexed : Lexed .inValue ((used ++ more).map Token.lexeme) := by
  have h := scan_lexed source
  rw [placed.scan, map_append] at h
  obtain ⟨last, -, h⟩ := (lexed_append (by simp)).1 h
  obtain ⟨-, -, h⟩ := h.of_cons (Or.inr (cons_ne_nil _ _))
  obtain ⟨-, -, h⟩ := h.of_cons (Or.inr (by simp [placed.more]))
  have hmode (mode : ScanMode) : mode.after equals.lexeme.kind = .inValue := by
    rw [Token.lexeme, placed.equals]
    rfl
  rwa [hmode] at h

theorem Placed.laid : Laid (written (us ++ [key, equals])) (used ++ more) := by
  have h := laid_scan source
  rw [placed.scan, show us ++ key :: equals :: (used ++ more) =
    (us ++ [key, equals]) ++ (used ++ more) by simp] at h
  exact (laid_append.1 h).2

/-- The first token of a value, and the line breaks before it. -/
theorem Placed.exists_first (hv : value ≠ []) :
    ∃ breaks t rest, used = breaks ++ t :: rest ∧ (∀ u ∈ breaks, u.kind = .newline) ∧
      t.kind.isSolid = true ∧ value = t :: valueTokens rest := by
  obtain ⟨t, ts, e⟩ := exists_cons_of_ne_nil hv
  rw [placed.value] at e
  obtain ⟨breaks, rest, rfl, hbreaks, ht, hts⟩ := filter_eq_cons_iff.1 e
  refine ⟨breaks, t, rest, rfl, by simpa using hbreaks, ?_, ?_⟩
  · exact (placed.run.solid placed.inner (by simp)).resolve_left (by simpa using ht)
  · rw [placed.value, e, ← hts]
    rfl

/-- A value of a file holds no property. -/
theorem Placed.whole : holdsProperty (joinTokens value) = false := by
  by_cases hv : value = []
  · rw [hv]
    rfl
  · obtain ⟨breaks, t, rest, rfl, -, solid, e⟩ := placed.exists_first hv
    have lexed := placed.lexed
    rw [append_assoc, map_append] at lexed
    obtain ⟨mode, -, lexed⟩ := (lexed_append (by simp)).1 lexed
    have laid := placed.laid
    rw [append_assoc] at laid
    obtain ⟨sane, start, -, laid⟩ := (laid_append.1 laid).2
    have run := (runs_append.1 placed.run).2
    have inner := placed.inner.of_append.2
    have behind := lexed
    obtain ⟨-, -, behind⟩ := behind.of_cons (Or.inr (by simp [placed.more]))
    have laid' := (laid_append.1 laid).1
    have hrest := (whole_tokens behind placed.more laid' run.2.2.2
      fun u hu => inner u (mem_cons_of_mem _ hu)).1
    have goes := goesOn laid' fun u hu => run.solid inner (mem_cons_of_mem _ hu)
    rw [e, joinTokens, ← (line_after_solid sane start solid).2]
    exact (whole_token lexed placed.more run inner solid goes hrest).1

end

/-- No property of a file has a value that holds the start of another property. -/
theorem holdsProperty_value {file : String} {o : Object} {k : String} {p : Property}
    (ho : o ∈ (Document.parse source file).objects) (hp : (k, p) ∈ o.properties) :
    holdsProperty p.value.toList = false := by
  obtain ⟨b, hb, -, -, -, -, -, -, origin⟩ := object_origin ho
  obtain ⟨st, hst, key, n, e, -⟩ := origin k p hp
  obtain ⟨key, equals, value, ending, due, rfl, -, rfl⟩ := assignment_of_property? e
  obtain ⟨us, used, more, placed⟩ := exists_placed hb hst
  simpa using placed.whole

end ModCheck
