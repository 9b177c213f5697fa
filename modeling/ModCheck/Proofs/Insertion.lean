import ModCheck.Proofs.Edits
import ModCheck.Proofs.Layout
import ModCheck.Proofs.LineBreak

/-
  Semicolons put in behind tokens. `Insertion due ts ts'` says that `ts'` is `ts` with a semicolon
  behind each of the tokens `due`, where a line, a comment or the section ends. There a semicolon
  comes between two lexemes and changes neither the ones before it, however far they look ahead,
  nor the ones after it (`lexed_insertion`). As a change to the text, a sign put in behind some
  tokens is what insertions at the ends of these tokens do (`putIn_edits`).
-/

namespace ModCheck

open List
open Text (isBlank)

variable {c : Char} {cs pre rest : List Char} {due ts ts' : List Token} {l : Lexeme}
  {ls : List Lexeme} {mode : ScanMode}

/-! ## Texts that start nothing

  What follows a place where a semicolon is put in: a line break, a comment, a bracket or the end
  of the file, with blanks before it. -/

/-- A text that does not go on with a name or an equals sign. -/
structure Rests (rest : List Char) : Prop where
  word : rest.head?.any Token.isWordChar = false
  equals : assigns rest = false

theorem assigns_append_of_last (hc : cs.getLast? = some c) (hb : isBlank c = false)
    (rest : List Char) : assigns (cs ++ rest) = assigns cs := by
  have hne : ¬ (cs.dropWhile isLineBlank).isEmpty = true := by
    intro hall
    have hb' := dropWhile_eq_nil_iff.1 (List.isEmpty_iff.1 hall) c (mem_of_getLast? hc)
    simp only [isLineBlank, hb, Bool.false_and] at hb'
    exact absurd hb' (by decide)
  rw [assigns, assigns, dropWhile_append, if_neg hne,
    head?_append_of_ne_nil _ fun e => hne (by rw [e]; rfl)]

/-- Whether a property starts is decided before such a text. -/
theorem startsProperty_of_append (hc : cs.getLast? = some c) (hb : isBlank c = false)
    (hr : Rests rest) (h : startsProperty (cs ++ rest) = true) : startsProperty cs = true := by
  cases cs with
  | nil => simp at hc
  | cons d ds =>
    rw [cons_append, startsProperty, Bool.and_eq_true] at h
    rw [startsProperty, Bool.and_eq_true]
    refine ⟨h.1, ?_⟩
    have hw := h.2
    rw [dropWhile_append] at hw
    split at hw
    · -- the name would end with the text, and the equals sign would have to follow
      rw [Lexeme.dropWhile_eq_self hr.word] at hw
      have ha : assigns rest = true := hw
      rw [hr.equals] at ha
      exact absurd ha (by decide)
    · next hne =>
      have hlast : (ds.dropWhile Token.isWordChar).getLast? = some c := by
        have hne' : ds.dropWhile Token.isWordChar ≠ [] := fun e => hne (by rw [e]; rfl)
        have hds : ds ≠ [] := fun e => hne' (by rw [e]; rfl)
        rw [getLast?_cons_of_ne_nil hds] at hc
        obtain ⟨us, e⟩ := dropWhile_suffix (l := ds) Token.isWordChar
        rw [← e, getLast?_append] at hc
        rw [← hc, getLast?_eq_some_getLast hne', Option.some_or]
      have ha : assigns (ds.dropWhile Token.isWordChar ++ rest) = true := hw
      rw [assigns_append_of_last hlast hb] at ha
      exact ha

/-- Where a value stops is decided before such a text. -/
theorem splitValue_of_append (hc : cs.getLast? = some c) (hb : isBlank c = false) (hr : Rests rest)
    (h : (splitValue (cs ++ rest)).1 = []) : (splitValue cs).1 = [] := by
  have hret : c ≠ '\r' := fun e => absurd hb (by rw [e]; decide)
  induction cs with
  | nil => rfl
  | cons d ds ih =>
    have seam : ds = [] → d = '\r' → rest.head? ≠ some '\n' := by
      rintro rfl rfl
      exact absurd (Option.some.inj hc).symm hret
    rw [cons_append] at h
    rcases splitValue_cons_eq_nil.1 h with e | e | e | ⟨hg, e⟩
    · exact splitValue_cons_eq_nil.2 (Or.inl e)
    · exact splitValue_cons_eq_nil.2 (Or.inr (Or.inl e))
    · rw [isLineEnd_append seam] at e
      exact splitValue_cons_eq_nil.2 (Or.inr (Or.inr (Or.inl e)))
    · rw [isGap_append seam] at hg
      refine splitValue_cons_eq_nil.2 (Or.inr (Or.inr (Or.inr ⟨hg, ?_⟩)))
      have hds : ds ≠ [] := by
        rintro rfl
        obtain rfl : d = c := Option.some.inj hc
        rw [isBlank_of_isGap hg] at hb
        exact absurd hb (by decide)
      rw [getLast?_cons_of_ne_nil hds] at hc
      rcases e with e | e
      · -- the blanks end before the text does, since it does not end with one
        left
        have hlast : (splitGap ds).2.getLast? = some c := by
          have happ := splitGap_append ds
          cases hgap : (splitGap ds).2.getLast? with
          | some b => rw [← hc, ← happ, getLast?_append, hgap, Option.some_or]
          | none =>
            rw [getLast?_eq_none_iff.1 hgap, append_nil] at happ
            have hmem : c ∈ (splitGap ds).1 := by
              rw [happ]
              exact mem_of_getLast? hc
            rw [(mem_splitGap hmem).1] at hb
            exact absurd hb (by decide)
        have hne : (splitGap ds).2 ≠ [] := fun e' => by simp [e'] at hlast
        rw [splitGap_append_right hne] at e
        exact startsProperty_of_append hlast hb hr e
      · exact Or.inr (ih hc e)

/-- A lexeme stops where it did when a semicolon is put in further on. -/
theorem Lexeme.Ends.insert (h : l.Ends mode (cs ++ rest)) (hc : cs.getLast? = some c)
    (hb : isBlank c = false) (dash : c = '-' → rest.head? ≠ some '-') (hr : Rests rest)
    (rest' : List Char) : l.Ends mode (cs ++ ';' :: rest') := by
  have hret : c ≠ '\r' := fun e => absurd hb (by rw [e]; decide)
  cases cs with
  | nil => simp at hc
  | cons d ds =>
    have seam (more : List Char) : ds = [] → d = '\r' → more.head? ≠ some '\n' := by
      rintro rfl rfl
      exact absurd (Option.some.inj hc).symm hret
    rw [cons_append] at h ⊢
    refine h.of_cons (fun _ hl => ?_) (fun hd hds => ?_) (fun _ hs => ?_) fun _ hv => ?_
    · rw [isLineEnd_append (seam rest)] at hl
      rwa [isLineEnd_append (seam (';' :: rest'))]
    · cases ds with
      | nil => exact absurd hds (dash ((Option.some.inj hc).symm.trans hd))
      | cons e es => exact hds
    · rw [← cons_append, assigns_append_of_last hc hb, ← assigns_append_of_last hc hb rest]
      exact hs
    · have hend : (d :: ds).getLast? ≠ some '\r' := by
        rw [hc]
        exact fun e => hret (Option.some.inj e)
      rw [← cons_append,
        splitValue_append_stop (halts_semicolon rest').value fun e => absurd e hend]
      exact splitValue_of_append hc hb hr hv

/-! ## Semicolons behind tokens -/

/-- The lexeme of a token. -/
def Token.lexeme (t : Token) : Lexeme :=
  ⟨t.lead.toList, t.kind, t.text.toList⟩

theorem map_lexeme_placeLexemes (place : Place) (ls : List Lexeme) :
    (placeLexemes place ls).map Token.lexeme = ls := by
  induction ls generalizing place with
  | nil => rfl
  | cons l ls ih =>
    rw [placeLexemes, map_cons, ih]
    simp [Token.lexeme, Lexeme.toToken]

theorem spell_map_lexeme (ts : List Token) : spell (ts.map Token.lexeme) = written ts := by
  induction ts with
  | nil => rfl
  | cons t ts ih =>
    rw [map_cons, spell_cons, ih, written_cons]
    rfl

/-- The kinds of token that end a line or a section. -/
def TokenKind.stops : TokenKind → Bool
  | .newline => true
  | .comment => true
  | .leftBracket => true
  | .endOfFile => true
  | _ => false

/-- Tokens at which a line or a section ends. -/
def StopsHere (ts : List Token) : Prop :=
  ∀ t, ts.head? = some t → t.kind.stops = true

/-- A semicolon right behind a token. -/
def Token.semicolon (t : Token) : Token :=
  ⟨.semicolon, "", ";", t.stop, t.endOffset⟩

/-- Tokens with semicolons put in behind some of them. -/
inductive Insertion : List Token → List Token → List Token → Prop
  | nil : Insertion [] [] []
  | keep (t : Token) {due ts ts' : List Token} (rest : Insertion due ts ts') :
      Insertion due (t :: ts) (t :: ts')
  | mark {t : Token} {due ts ts' : List Token} (solid : t.kind.isSolid = true)
      (stop : StopsHere ts) (rest : Insertion due ts ts') :
      Insertion (t :: due) (t :: ts) (t :: t.semicolon :: ts')

namespace Insertion

variable {due ts ts' : List Token}

theorem refl (ts : List Token) : Insertion [] ts ts := by
  induction ts with
  | nil => exact .nil
  | cons t ts ih => exact .keep t ih

theorem append_left (us : List Token) (h : Insertion due ts ts') :
    Insertion due (us ++ ts) (us ++ ts') := by
  induction us with
  | nil => exact h
  | cons u us ih => exact .keep u ih

theorem head?_eq (h : Insertion due ts ts') : ts'.head? = ts.head? := by
  cases h <;> rfl

end Insertion

/-! ## Scanning what was put in -/

/-- The kinds that end a line or a section are scanned alike in a value and outside. -/
theorem Lexed.normal_of_stops (h : Lexed mode (l :: ls)) (hs : l.kind.stops = true) :
    Lexed .normal (l :: ls) := by
  cases mode with
  | normal => exact h
  | inValue =>
    cases h with
    | stop hgap => exact .stop hgap
    | cons formed ends rest =>
      obtain ⟨gap, kind, text⟩ := l
      obtain ⟨hgap, form⟩ := formed
      cases kind <;> simp only [TokenKind.stops, Bool.false_eq_true] at hs
      case newline => exact .cons ⟨hgap, form⟩ trivial rest
      case leftBracket => exact .cons ⟨hgap, form⟩ trivial rest
      case comment => exact absurd form.2 (by decide)
      case endOfFile => exact absurd form id

theorem rests_of_splitGap {rest : List Char}
    (h : ∀ c, (splitGap rest).2.head? = some c → c ∈ ['[', '-', '\n', '\r']) : Rests rest := by
  have signs : ∀ c ∈ ['[', '-', '\n', '\r'], c ∈ [';', '[', ']', '=', '-', '\n', '\r'] := by simp
  refine ⟨?_, ?_⟩
  · have happ := splitGap_append rest
    cases hgap : (splitGap rest).1 with
    | nil =>
      rw [hgap, nil_append] at happ
      rw [← happ]
      cases hy : (splitGap rest).2.head? with
      | none => rfl
      | some c => exact isWordChar_eq_false (signs c (h c hy))
    | cons g gap =>
      rw [← happ, hgap]
      exact not_isWordChar_of_isBlank (mem_splitGap (hgap ▸ mem_cons_self)).1
  · by_contra ha
    have ha : (rest.dropWhile isLineBlank).head? = some '=' := by simpa [assigns] using ha
    have := h '=' (by rw [splitGap_of_equals ha, ha])
    exact absurd this (by decide)

theorem rests_of_stops (h : Lexed mode (l :: ls)) (hs : l.kind.stops = true) :
    Rests (spell (l :: ls)) := by
  apply rests_of_splitGap
  cases h with
  | stop hgap => simp [hgap]
  | cons formed ends rest =>
    obtain ⟨hgap, form⟩ := formed
    obtain ⟨hne, hret⟩ := form.text_ne
    rw [spell_cons, (splitGap_append_iff _ _ (spell ls) hne hret).2 hgap]
    intro c hc
    rw [head?_append_of_ne_nil _ hne] at hc
    obtain ⟨gap, kind, text⟩ := l
    cases kind <;> simp only [TokenKind.stops, Bool.false_eq_true] at hs <;>
      simp only [Lexeme.HasForm] at form
    case newline =>
      rcases form with e | e <;> simp only [e, head?_cons, Option.some.injEq] at hc <;>
        simp [← hc]
    case leftBracket =>
      simp only [form, head?_cons, Option.some.injEq] at hc
      simp [← hc]
    case comment =>
      obtain ⟨⟨cs, e, -⟩, -⟩ := form
      simp only [e, head?_cons, Option.some.injEq] at hc
      simp [← hc]

/-- How the text changes: not at all, or first where a semicolon comes in, before something that
starts nothing. -/
def Inserted (cs cs' : List Char) : Prop :=
  cs' = cs ∨ ∃ before rest rest' c, cs = before ++ rest ∧ cs' = before ++ ';' :: rest' ∧
    before.getLast? = some c ∧ isBlank c = false ∧ (c = '-' → rest.head? ≠ some '-') ∧ Rests rest

theorem Inserted.append_left {cs' : List Char} (h : Inserted cs cs') (before : List Char) :
    Inserted (before ++ cs) (before ++ cs') := by
  rcases h with rfl | ⟨mid, rest, rest', c, rfl, rfl, hc, h⟩
  · exact Or.inl rfl
  · refine Or.inr ⟨before ++ mid, rest, rest', c, by simp, by simp, ?_, h⟩
    rw [getLast?_append, hc, Option.some_or]

theorem Lexeme.Ends.of_inserted {cs' : List Char} (h : l.Ends mode cs) (hi : Inserted cs cs') :
    l.Ends mode cs' := by
  rcases hi with rfl | ⟨before, rest, rest', c, rfl, rfl, hc, hb, dash, hr⟩
  · exact h
  · exact h.insert hc hb dash hr rest'

/-- A solid lexeme stops before a semicolon where it stopped before something that starts
nothing. -/
theorem Lexeme.Ends.semicolon (h : l.Ends mode rest) (hs : l.kind.isSolid = true) (hr : Rests rest)
    (rest' : List Char) : l.Ends mode (';' :: rest') := by
  have hx := halts_semicolon rest'
  obtain ⟨gap, kind, text⟩ := l
  cases kind <;> simp only [Lexeme.Ends] at h ⊢
  case comment => exact absurd hs Bool.false_ne_true
  case identifier =>
    refine ⟨hx.head_not_isWordChar, fun hm => ?_⟩
    have := h.2 hm
    rw [hr.equals] at this
    exact absurd this (by decide)
  case value =>
    cases mode with
    | normal => exact ⟨hx.word, fun _ => hx.dash⟩
    | inValue => exact hx.value

/-- A word or a value that ends with a hyphen is not followed by another one. -/
theorem Lexeme.Ends.dash (h : l.Ends mode rest) (hf : l.HasForm mode) (hs : l.kind.isSolid = true)
    (hl : l.text.getLast? = some '-') : rest.head? ≠ some '-' := by
  obtain ⟨gap, kind, text⟩ := l
  cases kind <;> simp only [Lexeme.HasForm] at h hf
  case newline => exact absurd hs Bool.false_ne_true
  case comment => exact absurd hs Bool.false_ne_true
  case semicolon => simp [hf] at hl
  case leftBracket => simp [hf] at hl
  case rightBracket => simp [hf.1] at hl
  case equals => simp [hf.1] at hl
  case identifier =>
    cases text with
    | nil => exact absurd hf.1 id
    | cons c cs =>
      rcases mem_cons.1 (mem_of_getLast? hl) with rfl | hm
      · exact absurd hf.1.1 (by rw [isWordStart_eq_false (by decide)]; decide)
      · exact absurd (hf.1.2 '-' hm) (by rw [isWordChar_eq_false (by decide)]; decide)
  case value =>
    cases mode with
    | normal => exact h.2 hl
    | inValue =>
      intro hd
      obtain ⟨ds, rfl⟩ := head?_eq_some_iff.1 hd
      rcases splitValue_cons_eq_nil.1 h with e | e | e | ⟨e, -⟩
      · exact absurd e (by decide)
      · exact absurd e (by decide)
      · simp [isLineEnd] at e
      · exact absurd (isBlank_of_isGap e) (by decide)

theorem Lexed.of_cons (h : Lexed mode (l :: ls)) (hl : l.kind ≠ .endOfFile ∨ ls ≠ []) :
    l.Formed mode ∧ l.Ends mode (spell ls) ∧ Lexed (mode.after l.kind) ls := by
  generalize e : l :: ls = ms at h
  cases h with
  | stop =>
    obtain ⟨rfl, rfl⟩ := cons_eq_cons.1 e
    simp at hl
  | cons formed ends rest =>
    obtain ⟨rfl, rfl⟩ := cons_eq_cons.1 e
    exact ⟨formed, ends, rest⟩

theorem lexed_semicolon (h : Lexed .normal ls) (mode : ScanMode) (t : Token) :
    Lexed mode (t.semicolon.lexeme :: ls) := by
  have e : t.semicolon.lexeme = ⟨[], .semicolon, [';']⟩ := by simp [Token.lexeme, Token.semicolon]
  rw [e]
  exact .cons ⟨by decide, rfl⟩ trivial h

/-- A token before tokens that change stays as it is, if what follows ends it as before. -/
theorem lexed_keep {R : List Char → List Char → Prop} {t : Token}
    (append : ∀ {cs cs' : List Char}, R cs cs' → ∀ before, R (before ++ cs) (before ++ cs'))
    (ends : ∀ {mode : ScanMode} {l : Lexeme} {cs cs' : List Char}, l.Ends mode cs → R cs cs' →
      l.Ends mode cs')
    (lexed : Lexed mode ((t :: ts).map Token.lexeme)) (hts : ts ≠ [])
    (ih : ∀ {mode : ScanMode}, Lexed mode (ts.map Token.lexeme) →
      Lexed mode (ts'.map Token.lexeme) ∧ R (written ts) (written ts')) :
    Lexed mode ((t :: ts').map Token.lexeme) ∧ R (written (t :: ts)) (written (t :: ts')) := by
  obtain ⟨formed, stop, tail⟩ := lexed.of_cons (Or.inr (by simpa using hts))
  obtain ⟨lexed', changed⟩ := ih tail
  rw [spell_map_lexeme] at stop
  refine ⟨.cons formed ?_ lexed', ?_⟩
  · rw [spell_map_lexeme]
    exact ends stop changed
  · rw [written_cons t, written_cons t]
    exact append (append changed _) _

/-- The lexemes of tokens with semicolons put in are again scanned from what they spell. -/
theorem lexed_insertion (h : Insertion due ts ts') (lexed : Lexed mode (ts.map Token.lexeme)) :
    Lexed mode (ts'.map Token.lexeme) ∧ Inserted (written ts) (written ts') := by
  induction h generalizing mode with
  | nil => exact ⟨lexed, Or.inl rfl⟩
  | @keep t due ts ts' rest ih =>
    cases ts with
    | nil =>
      cases rest
      exact ⟨lexed, Or.inl rfl⟩
    | cons u us =>
      exact lexed_keep Inserted.append_left Lexeme.Ends.of_inserted lexed (cons_ne_nil _ _) ih
  | @mark t due ts ts' solid stop rest ih =>
    have hk : t.kind ≠ .endOfFile := by
      intro e
      simp [e, TokenKind.isSolid] at solid
    obtain ⟨formed, ends, tail⟩ := lexed.of_cons (Or.inl hk)
    obtain ⟨lexed', -⟩ := ih tail
    -- after the semicolon the scanner is out of any value
    obtain ⟨normal, rests⟩ : Lexed .normal (ts'.map Token.lexeme) ∧ Rests (written ts) := by
      cases ts with
      | nil => cases tail
      | cons u us =>
        have hu : u.kind.stops = true := stop u rfl
        refine ⟨?_, ?_⟩
        · obtain ⟨us', rfl⟩ := head?_eq_some_iff.1 rest.head?_eq
          exact lexed'.normal_of_stops hu
        · rw [← spell_map_lexeme]
          exact rests_of_stops tail hu
    rw [spell_map_lexeme] at ends
    have text := formed.solidText solid
    have e : spell ((t.semicolon :: ts').map Token.lexeme) = ';' :: written ts' := by
      rw [spell_map_lexeme]
      simp [Token.semicolon]
    refine ⟨.cons formed ?_ (lexed_semicolon normal _ t), ?_⟩
    · rw [e]
      exact ends.semicolon solid rests _
    obtain ⟨c, hc⟩ : ∃ c, t.text.toList.getLast? = some c :=
      ⟨_, getLast?_eq_some_getLast text.ne_nil⟩
    refine Or.inr ⟨t.lead.toList ++ t.text.toList, written ts, written ts', c, by simp, ?_, ?_,
      text.last c hc, ?_, rests⟩
    · rw [written_cons, ← spell_map_lexeme (t.semicolon :: ts'), e]
      simp
    · rw [getLast?_append, hc, Option.some_or]
    · rintro rfl
      exact ends.dash formed.2 solid hc

/-! ## Lines

  Columns and bytes are counted on behind a semicolon that was put in, lines are not. -/

/-- A token without its column and its bytes. -/
def Token.flat (t : Token) : Token :=
  { t with start := ⟨t.line, 0⟩, offset := 0 }

/-- Tokens whose lines are counted from line `n` on. -/
def LinedUp : Nat → List Token → Prop
  | _, [] => True
  | n, t :: ts =>
    t.line = n + t.lead.toList.count '\n' ∧
      LinedUp (n + (t.lead.toList.count '\n' + t.text.toList.count '\n')) ts

theorem LinedUp.map_flat {place : Place} (h : LinedUp place.position.line ts) :
    (placeLexemes place (ts.map Token.lexeme)).map Token.flat = ts.map Token.flat := by
  induction ts generalizing place with
  | nil => rfl
  | cons t ts ih =>
    obtain ⟨line, rest⟩ := h
    rw [map_cons, placeLexemes, map_cons, ih]
    · congr 1
      simp only [Token.lexeme, Lexeme.toToken, Token.flat, Place.after, Token.line,
        String.ofList_toList, Position.after_line]
      rw [← line]
      rfl
    · simp only [Place.after, Position.after_line, Nat.add_assoc]
      exact rest

/-- Tokens with their lines are scanned again from what they spell. -/
theorem scan_written (lexed : Lexed .normal (ts.map Token.lexeme)) (lines : LinedUp 1 ts) :
    (Token.scan (String.ofList (written ts))).map Token.flat = ts.map Token.flat := by
  have e : lexemes .normal (written ts) = ts.map Token.lexeme := by
    rw [← spell_map_lexeme]
    exact lexemes_of_lexed lexed
  rw [Token.scan, String.toList_ofList, e, lines.map_flat]

theorem line_after_token (pre : List Char) (t : Token) :
    (Position.after ⟨1, 0⟩ (pre ++ t.lead.toList ++ t.text.toList)).line =
      (Position.after ⟨1, 0⟩ pre).line + (t.lead.toList.count '\n' + t.text.toList.count '\n') := by
  rw [Position.after_append, Position.after_append, Position.after_line, Position.after_line,
    Nat.add_assoc]

/-! ## Signs put in behind tokens -/

/-- A sign right behind a token. -/
def Token.behind (sign : TokenKind) (text : String) (t : Token) : Token :=
  ⟨sign, "", text, t.stop, t.endOffset⟩

/-- Tokens with a sign put in behind some of them, however that is scanned. -/
inductive PutIn (sign : TokenKind) (text : String) : List Token → List Token → List Token → Prop
  | nil : PutIn sign text [] [] []
  | keep (t : Token) {due ts ts' : List Token} (rest : PutIn sign text due ts ts') :
      PutIn sign text due (t :: ts) (t :: ts')
  | mark {t : Token} {due ts ts' : List Token} (solid : t.kind.isSolid = true)
      (rest : PutIn sign text due ts ts') :
      PutIn sign text (t :: due) (t :: ts) (t :: t.behind sign text :: ts')

theorem Insertion.putIn (h : Insertion due ts ts') : PutIn .semicolon ";" due ts ts' := by
  induction h with
  | nil => exact .nil
  | keep t rest ih => exact .keep t ih
  | mark solid stop rest ih => exact .mark solid ih

theorem linedUp_putIn {sign : TokenKind} {text : String} (h : PutIn sign text due ts ts')
    (hline : '\n' ∉ text.toList) (laid : Laid pre ts) :
    LinedUp (Position.after ⟨1, 0⟩ pre).line ts' := by
  induction h generalizing pre with
  | nil => trivial
  | @keep t due ts ts' rest ih =>
    obtain ⟨sane, start, -, laid⟩ := laid
    refine ⟨?_, ?_⟩
    · rw [Token.line, start, Position.after_append, Position.after_line]
    · rw [← line_after_token]
      exact ih laid
  | @mark t due ts ts' solid rest ih =>
    obtain ⟨sane, start, -, laid⟩ := laid
    have line : t.line = (Position.after ⟨1, 0⟩ pre).line + t.lead.toList.count '\n' := by
      rw [Token.line, start, Position.after_append, Position.after_line]
    have htext : t.text.toList.count '\n' = 0 := count_eq_zero.2 (sane.solid solid).oneLine
    refine ⟨line, ?_, ?_⟩
    · rw [htext, Nat.add_zero, ← line]
      simp [Token.behind, Token.line, Token.stop]
    · rw [← line_after_token]
      simpa [Token.behind, count_eq_zero.2 hline] using ih laid

/-- Scanning what was put in gives its tokens, on the same lines. -/
theorem scan_insertion {source : String} (h : Insertion due (Token.scan source) ts') :
    (Token.scan (String.ofList (written ts'))).map Token.flat = ts'.map Token.flat := by
  have lexed : Lexed .normal ((Token.scan source).map Token.lexeme) := by
    rw [Token.scan, map_lexeme_placeLexemes]
    exact (lexed_lexemes .normal source.toList).1
  exact scan_written (lexed_insertion h lexed).1
    (linedUp_putIn h.putIn (by decide) (laid_scan source))

/-! ## Signs put in by edits -/

/-- The edit that puts a semicolon in. -/
def Token.closing (file : String) (t : Token) : Correction :=
  .insert file t.stop ";"

theorem locate_behind {t : Token} (sane : t.Sane) (hs : t.kind.isSolid = true)
    (start : t.start = Position.after ⟨1, 0⟩ (pre ++ t.lead.toList)) (file text : String)
    (rest : List Char) :
    Edit.locate (pre ++ t.lead.toList ++ t.text.toList ++ rest) (.insert file t.stop text) =
      .ok ⟨(pre ++ t.lead.toList ++ t.text.toList).length,
        (pre ++ t.lead.toList ++ t.text.toList).length, .insert file t.stop text⟩ := by
  have solid := sane.solid hs
  have stop : t.stop = Position.after ⟨1, 0⟩ (pre ++ t.lead.toList ++ t.text.toList) := by
    rw [Position.after_append, ← start, solid.stop_eq]
  have index : t.stop.index? (pre ++ t.lead.toList ++ t.text.toList ++ rest) =
      some (pre ++ t.lead.toList ++ t.text.toList).length := by
    rw [stop]
    exact index?_after (solid.addressable_stop _ _)
  exact Edit.locate_eq_ok (by simp [Correction.isOrdered, Correction.insert, Span.point]) index
    index

/-- The signs are put in by edits at the ends of the tokens, which follow each other. -/
theorem putIn_edits {sign : TokenKind} {text : String} (h : PutIn sign text due ts ts')
    (file : String) (post : List Char) (laid : Laid pre ts) :
    ∃ es, due.mapM (fun t => Edit.locate (pre ++ (written ts ++ post)) (.insert file t.stop text)) =
        .ok es ∧
      (∀ e ∈ es, e.start = e.stop ∧ pre.length < e.start ∧ e.stop ≤ (pre ++ written ts).length) ∧
      es.Pairwise (fun a b => a.stop < b.start) ∧
      substitute pre.length es (written ts ++ post) = written ts' ++ post := by
  induction h generalizing pre with
  | nil => exact ⟨[], rfl, by simp, .nil, rfl⟩
  | @keep t due ts ts' rest ih =>
    obtain ⟨sane, start, -, laid⟩ := laid
    obtain ⟨es, located, bounds, apart, changed⟩ := ih laid
    refine ⟨es, by simpa using located, ?_, apart, ?_⟩
    · intro e he
      have := bounds e he
      simp only [length_append, written_cons] at this ⊢
      omega
    · have copied := substitute_append (t.lead.toList ++ t.text.toList) (written ts ++ post)
        pre.length es fun e he => by
          have := bounds e (mem_of_mem_head? he)
          simp only [length_append] at this ⊢
          omega
      simp only [length_append, Nat.add_assoc] at copied changed
      rw [changed] at copied
      simpa using copied
  | @mark t due ts ts' solid rest ih =>
    obtain ⟨sane, start, -, laid⟩ := laid
    obtain ⟨es, located, bounds, apart, changed⟩ := ih laid
    have here := locate_behind sane solid start file text (written ts ++ post)
    have hne : 0 < t.text.toList.length := length_pos_iff.2 (sane.solid solid).ne_nil
    have whole : pre ++ (written (t :: ts) ++ post) =
        pre ++ t.lead.toList ++ t.text.toList ++ (written ts ++ post) := by simp
    generalize hn : (pre ++ t.lead.toList ++ t.text.toList).length = n at here bounds changed
    have hpre : n - pre.length = (t.lead.toList ++ t.text.toList).length := by
      rw [← hn]
      simp only [length_append]
      omega
    -- the edit behind `t` comes first, and all others lie behind the next token
    refine ⟨⟨n, n, .insert file t.stop text⟩ :: es, ?_, ?_, ?_, ?_⟩
    · rw [whole, mapM_cons, here, located]
      rfl
    · intro e he
      simp only [length_append, written_cons] at hn bounds ⊢
      rcases mem_cons.1 he with rfl | he
      · dsimp only
        omega
      · have := bounds e he
        omega
    · exact pairwise_cons.2 ⟨fun e he => (bounds e he).2.1, apart⟩
    · have hsplit : written (t :: ts) ++ post =
          (t.lead.toList ++ t.text.toList) ++ (written ts ++ post) := by simp
      rw [substitute, hpre, hsplit, take_left, drop_left, changed]
      simp [Correction.insert, Token.behind]

end ModCheck
