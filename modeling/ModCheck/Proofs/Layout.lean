import ModCheck.Proofs.Address
import ModCheck.Proofs.Lexemes

/-
  Tokens in the text they were cut from. `Laid pre ts` says that the tokens `ts` stand one after
  the other behind the text `pre`, each at the place and with the bytes that it claims. The tokens
  of a file are laid out from its start (`laid_scan`) and spell it (`written_scan`). A token that
  is no line break, comment or end of the file is solid: it stays on one line and neither starts
  nor ends with a blank, so that both of its ends have an address.
-/

namespace ModCheck

open List
open Text (isBlank)

variable {c : Char} {cs pre text : List Char} {l : Lexeme} {mode : ScanMode} {t : Token}
  {ts : List Token}

/-! ## The shape of a token -/

/-- The kinds of token that a file means something by. -/
def TokenKind.isSolid : TokenKind → Bool
  | .newline => false
  | .comment => false
  | .endOfFile => false
  | _ => true

theorem TokenKind.isSolid_iff {kind : TokenKind} :
    kind.isSolid = true ↔ kind ≠ .newline ∧ kind ≠ .comment ∧ kind ≠ .endOfFile := by
  cases kind <;> simp [TokenKind.isSolid]

/-- A text on one line, without blanks at its ends. -/
structure SolidText (text : List Char) : Prop where
  ne_nil : text ≠ []
  oneLine : '\n' ∉ text
  first : ∀ c, text.head? = some c → isBlank c = false
  last : ∀ c, text.getLast? = some c → isBlank c = false

/-- What is known of a token by its kind. -/
structure Token.Sane (t : Token) : Prop where
  lead : '\n' ∉ t.lead.toList
  newline : t.kind = .newline → t.text.toList = ['\n'] ∨ t.text.toList = ['\r', '\n']
  solid : t.kind.isSolid = true → SolidText t.text.toList

theorem solidText_sign (h : c ∈ [';', '[', ']', '=']) : SolidText [c] := by
  have signs : [';', '[', ']', '='].all (fun c => c != '\n' && !isBlank c) = true := by decide
  obtain ⟨hn, hb⟩ : c ≠ '\n' ∧ isBlank c = false := by
    simpa using all_eq_true.1 signs c h
  refine ⟨cons_ne_nil _ _, by simpa using Ne.symm hn, ?_, ?_⟩
  · intro d hd
    rwa [← Option.some.inj hd]
  · intro d hd
    rwa [← Option.some.inj hd]

/-- A text is solid if no character is blank. -/
theorem solidText_of_forall (h : ∀ d ∈ c :: cs, isBlank d = false) : SolidText (c :: cs) := by
  refine ⟨cons_ne_nil _ _, fun hn => ?_, ?_, ?_⟩
  · exact absurd (h '\n' hn) (by decide)
  · intro d hd
    exact h d (mem_of_mem_head? hd)
  · intro d hd
    exact h d (mem_of_getLast? hd)

theorem IsName.not_isBlank (h : IsName text) : ∀ c ∈ text, isBlank c = false := by
  intro c hc
  cases text with
  | nil => exact absurd h id
  | cons d ds =>
    by_contra hb
    rw [Bool.not_eq_false] at hb
    rcases mem_cons.1 hc with rfl | hc
    · exact absurd h.1 (by simp [not_isWordStart_of_isBlank hb])
    · exact absurd (h.2 c hc) (by simp [not_isWordChar_of_isBlank hb])

theorem solidText_name (h : IsName text) : SolidText text := by
  cases text with
  | nil => exact absurd h id
  | cons c cs => exact solidText_of_forall h.not_isBlank

theorem IsWord.not_isBlank (h : IsWord text)
    (first : ∀ c, text.head? = some c → isBlank c = false) : ∀ c ∈ text, isBlank c = false := by
  intro c hc
  cases text with
  | nil => exact absurd h id
  | cons d ds =>
    rcases mem_cons.1 hc with rfl | hc
    · exact first c rfl
    · have hw : c ∈ (splitWord ds).1 := by rwa [h.2.2.2]
      have := splitWord_not_isDelimiter hw
      simp only [isDelimiter, Bool.or_eq_false_iff] at this
      exact this.1.1.1.1

theorem solidText_word (h : IsWord text) (hc : ∀ c, text.head? = some c → isBlank c = false) :
    SolidText text := by
  cases text with
  | nil => exact absurd h id
  | cons c cs => exact solidText_of_forall (h.not_isBlank hc)

theorem solidText_value (h : IsValue text) (hc : ∀ c, text.head? = some c → isBlank c = false) :
    SolidText text := by
  cases text with
  | nil => exact absurd h id
  | cons c cs =>
    obtain ⟨hs, hcs⟩ := h
    refine ⟨cons_ne_nil _ _, fun hn => ?_, hc, fun d hd => ?_⟩
    · rcases mem_cons.1 hn with e | hn
      · exact hs (by simp [← e])
      · have hv : '\n' ∈ (splitValue cs).1 := by rwa [hcs]
        exact splitValue_not_mem hv (by decide)
    · cases he : cs with
      | nil =>
        rw [he] at hd hc
        exact hc d hd
      | cons e es =>
        rw [getLast?_cons_of_ne_nil (by simp [he])] at hd
        have hv : (splitValue cs).1.getLast? = some d := by rwa [hcs]
        exact splitValue_getLast_not_isBlank hv

theorem mem_splitGap (h : c ∈ (splitGap cs).1) : isBlank c = true ∧ c ≠ '\n' := by
  induction cs with
  | nil => simp [splitGap] at h
  | cons d cs ih =>
    rw [splitGap] at h
    split at h
    · next hg =>
      rcases mem_cons.1 h with rfl | h
      · exact ⟨isBlank_of_isGap hg, (isGap_ne hg).2.2⟩
      · exact ih h
    · simp at h

/-- The first character of a lexeme is blank only in a line break. -/
theorem Lexeme.Formed.head_not_isBlank (h : l.Formed mode) (ht : l.text = c :: cs) (hn : c ≠ '\n')
    (hr : c ≠ '\r') : isBlank c = false := by
  have hg : isGap c cs = false := Lexeme.splitGap_not_isGap (ht ▸ h.1)
  by_contra hb
  rcases isGap_or_isLineEnd cs (Bool.not_eq_false _ ▸ hb) with hgap | hend
  · rw [hgap] at hg
    exact absurd hg (by decide)
  · simp [isLineEnd, hn, hr] at hend

/-- Lexemes other than line breaks and comments have solid texts. -/
theorem Lexeme.Formed.solidText (h : l.Formed mode) (hk : l.kind.isSolid = true) :
    SolidText l.text := by
  have form := h.2
  obtain ⟨gap, kind, text⟩ := l
  cases kind <;> simp only [Lexeme.HasForm] at form
  case newline => exact absurd hk Bool.false_ne_true
  case comment => exact absurd hk Bool.false_ne_true
  case semicolon => exact form ▸ solidText_sign (by decide)
  case leftBracket => exact form ▸ solidText_sign (by decide)
  case rightBracket => exact form.1 ▸ solidText_sign (by decide)
  case equals => exact form.1 ▸ solidText_sign (by decide)
  case identifier => exact solidText_name form.1
  case value =>
    cases text with
    | nil => cases mode <;> simp [IsWord, IsValue] at form
    | cons c cs =>
      have hc : ∀ d, (c :: cs).head? = some d → isBlank d = false := by
        intro d hd
        rw [← Option.some.inj hd]
        cases mode with
        | normal =>
          exact h.head_not_isBlank rfl (fun e => form.1 (by simp [e])) fun e => form.1 (by simp [e])
        | inValue =>
          exact h.head_not_isBlank rfl (fun e => form.1.1 (by simp [e]))
            fun e => form.1.1 (by simp [e])
      cases mode with
      | normal => exact solidText_word form hc
      | inValue => exact solidText_value form.1 hc

theorem Lexeme.Formed.sane (h : l.Formed mode) (place : Place) : (l.toToken place).Sane := by
  have form := h.2
  refine ⟨?_, ?_, ?_⟩
  · intro hn
    have hmem : '\n' ∈ (splitGap (l.gap ++ l.text)).1 := by
      rw [h.1]
      simpa [Lexeme.toToken] using hn
    exact (mem_splitGap hmem).2 rfl
  · intro hk
    have hk : l.kind = .newline := hk
    simp only [Lexeme.HasForm, hk] at form
    simpa [Lexeme.toToken] using form
  · intro hk
    have := h.solidText hk
    simpa [Lexeme.toToken] using this

/-! ## Tokens laid out -/

/-- The text of tokens, blanks included. -/
def written (ts : List Token) : List Char :=
  ts.flatMap fun t => t.lead.toList ++ t.text.toList

@[simp] theorem written_nil : written [] = [] := rfl

@[simp] theorem written_cons (t : Token) (ts : List Token) :
    written (t :: ts) = t.lead.toList ++ (t.text.toList ++ written ts) := by
  simp [written]

theorem written_append (ts us : List Token) : written (ts ++ us) = written ts ++ written us := by
  simp [written]

/-- Tokens that stand one after the other behind the text `pre`. -/
def Laid : List Char → List Token → Prop
  | _, [] => True
  | pre, t :: ts =>
    t.Sane ∧ t.start = Position.after ⟨1, 0⟩ (pre ++ t.lead.toList) ∧
      t.offset = byteLength (pre ++ t.lead.toList) ∧
      Laid (pre ++ t.lead.toList ++ t.text.toList) ts

theorem laid_append {us : List Token} :
    Laid pre (ts ++ us) ↔ Laid pre ts ∧ Laid (pre ++ written ts) us := by
  induction ts generalizing pre with
  | nil => simp [Laid]
  | cons t ts ih =>
    simp only [cons_append, Laid, ih, written_cons, append_assoc]
    constructor
    · rintro ⟨sane, start, offset, h, h'⟩
      exact ⟨⟨sane, start, offset, h⟩, h'⟩
    · rintro ⟨⟨sane, start, offset, h⟩, h'⟩
      exact ⟨sane, start, offset, h, h'⟩

theorem Laid.sane (h : Laid pre ts) (ht : t ∈ ts) : t.Sane := by
  obtain ⟨us, vs, rfl⟩ := append_of_mem ht
  exact (laid_append.1 h).2.1

theorem laid_placeLexemes {ls : List Lexeme} (h : Lexed mode ls) (pre : List Char) :
    Laid pre (placeLexemes ⟨byteLength pre, Position.after ⟨1, 0⟩ pre⟩ ls) := by
  induction h generalizing pre with
  | @stop mode gap h =>
    refine ⟨⟨?_, by simp [Lexeme.toToken], by simp [Lexeme.toToken, TokenKind.isSolid]⟩, ?_, ?_,
      trivial⟩
    · intro hn
      have hmem : '\n' ∈ (splitGap gap).1 := by
        rw [h]
        simpa [Lexeme.toToken] using hn
      exact (mem_splitGap hmem).2 rfl
    · simp [Lexeme.toToken, Place.after, Position.after_append]
    · simp [Lexeme.toToken, Place.after]
  | @cons mode l ls formed ends rest ih =>
    refine ⟨formed.sane _, ?_, ?_, ?_⟩
    · simp [Lexeme.toToken, Place.after, Position.after_append]
    · simp [Lexeme.toToken, Place.after]
    · have := ih (pre ++ l.gap ++ l.text)
      simpa [Lexeme.toToken, Place.after, Position.after_append, Nat.add_assoc] using this

theorem written_placeLexemes (place : Place) (ls : List Lexeme) :
    written (placeLexemes place ls) = spell ls := by
  induction ls generalizing place with
  | nil => rfl
  | cons l ls ih => simp [placeLexemes, Lexeme.toToken, ih]

theorem laid_scan (source : String) : Laid [] (Token.scan source) :=
  laid_placeLexemes (lexed_lexemes .normal source.toList).1 []

theorem written_scan (source : String) : written (Token.scan source) = source.toList := by
  rw [Token.scan, written_placeLexemes, (lexed_lexemes .normal source.toList).2]

/-! ## The ends of a token -/

/-- The place after a token. -/
def Token.stop (t : Token) : Position :=
  ⟨t.line, t.endColumn⟩

theorem SolidText.stop_eq (h : SolidText t.text.toList) : t.stop = t.start.after t.text.toList := by
  rw [Position.after_of_not_mem _ h.oneLine]
  simp [Token.stop, Token.line, Token.endColumn, String.length_toList]

/-- The start of a solid text has an address. -/
theorem SolidText.addressable_start (h : SolidText text) (pre post : List Char) :
    Addressable pre (text ++ post) := by
  obtain ⟨c, cs, rfl⟩ := exists_cons_of_ne_nil h.ne_nil
  have hb : isBlank c = false := h.first c rfl
  have hn : c ≠ '\n' := fun e => h.oneLine (by simp [e])
  refine Or.inr ⟨c, ?_, ?_⟩
  · simp [hn]
  · rintro rfl
    exact absurd hb (by decide)

theorem SolidText.exists_last (h : SolidText text) : ∃ c, text.getLast? = some c ∧ c ≠ '\r' := by
  have e := getLast?_eq_some_getLast h.ne_nil
  refine ⟨_, e, fun hr => ?_⟩
  have hb := h.last _ e
  rw [hr] at hb
  exact absurd hb (by decide)

/-- The end of a solid text has an address. -/
theorem SolidText.addressable_stop (h : SolidText text) (pre post : List Char) :
    Addressable (pre ++ text) post := by
  obtain ⟨c, hc, hr⟩ := h.exists_last
  left
  rw [getLast?_append, hc]
  exact fun e => hr (Option.some.inj e)

theorem Token.Sane.start_lt_stop (sane : t.Sane) (hs : t.kind.isSolid = true) :
    t.start < t.stop := by
  have solid := sane.solid hs
  rw [solid.stop_eq]
  exact Position.lt_after _ solid.ne_nil

/-- Tokens come one after the other. -/
theorem Laid.pairwise (h : Laid pre ts) :
    ts.Pairwise fun a b => a.kind.isSolid = true → a.stop ≤ b.start := by
  induction ts generalizing pre with
  | nil => exact List.Pairwise.nil
  | cons t ts ih =>
    obtain ⟨sane, start, -, laid⟩ := h
    refine pairwise_cons.2 ⟨fun u hu hs => ?_, ih laid⟩
    obtain ⟨us, vs, rfl⟩ := append_of_mem hu
    obtain ⟨-, -, start', -⟩ := laid_append.1 laid
    rw [start', (sane.solid hs).stop_eq, start, ← Position.after_append,
      append_assoc _ (written us), Position.after_append _ (pre ++ t.lead.toList ++ t.text.toList)]
    exact Position.le_after _ _

end ModCheck
