import ModCheck.Proofs.Splitting

/-
  What a lexeme is, without running the scanner. `Lexeme.Formed` says which texts a kind of lexeme
  has, `Lexeme.Ends` what may follow it, and `Lexed` chains both over a list. Scanning a text gives
  a list exactly when the list spells the text and is lexed (`lexemes_eq_iff`), so that a text put
  together from lexemes is scanned back into them once their ends are checked.
-/

namespace ModCheck

open List
open Text (isBlank)

variable {mode : ScanMode}

/-! ## Lexemes -/

/-- Whether blanks and an equals sign stand here. -/
def assigns (cs : List Char) : Bool :=
  (cs.dropWhile isLineBlank).head? == some '='

/-- A name. -/
def IsName : List Char → Prop
  | [] => False
  | c :: cs => Token.isWordStart c = true ∧ ∀ d ∈ cs, Token.isWordChar d = true

instance : DecidablePred IsName
  | [] => isFalse id
  | c :: cs =>
    decidable_of_iff (Token.isWordStart c = true ∧ cs.all Token.isWordChar = true)
      (by rw [IsName, all_eq_true])

/-- A bare word outside a value. -/
def IsWord : List Char → Prop
  | [] => False
  | c :: cs =>
    c ∉ ['\n', '\r', ';', '[', ']', '='] ∧ Token.isWordStart c = false ∧
      (c = '-' → cs.head? ≠ some '-') ∧ splitWord cs = (cs, [])

instance : DecidablePred IsWord
  | [] => isFalse id
  | _ :: _ => instDecidableAnd

/-- The text of a value that follows an equals sign. -/
def IsValue : List Char → Prop
  | [] => False
  | c :: cs => c ∉ ['\n', '\r', ';', '['] ∧ splitValue cs = (cs, [])

/-- A comment. -/
def IsComment (text : List Char) : Prop :=
  ∃ cs, text = '-' :: '-' :: cs ∧ splitLine cs = (cs, [])

namespace Lexeme

variable {c : Char} {cs rest : List Char} {l : Lexeme} {mode : ScanMode}

/-- The texts that each kind of lexeme can have. In a value, a name can only stand after blanks,
where another property starts. -/
def HasForm (mode : ScanMode) (l : Lexeme) : Prop :=
  match l.kind with
  | .newline => l.text = ['\n'] ∨ l.text = ['\r', '\n']
  | .semicolon => l.text = [';']
  | .leftBracket => l.text = ['[']
  | .rightBracket => l.text = [']'] ∧ mode = .normal
  | .equals => l.text = ['='] ∧ mode = .normal
  | .comment => IsComment l.text ∧ mode = .normal
  | .identifier => IsName l.text ∧ (mode = .inValue → l.gap ≠ [])
  | .value =>
    match mode with
    | .normal => IsWord l.text
    | .inValue => IsValue l.text ∧ (l.gap ≠ [] → startsProperty l.text = false)
  | .endOfFile => False

/-- A lexeme that is cut as it should be, blanks included. -/
def Formed (mode : ScanMode) (l : Lexeme) : Prop :=
  splitGap (l.gap ++ l.text) = (l.gap, l.text) ∧ l.HasForm mode

/-- Whether a lexeme stops before `rest`. -/
def Ends (mode : ScanMode) (l : Lexeme) (rest : List Char) : Prop :=
  match l.kind with
  | .identifier =>
    rest.head?.any Token.isWordChar = false ∧ (mode = .inValue → assigns rest = true)
  | .comment =>
    (splitLine rest).1 = [] ∧ (l.text.getLast? = some '\r' → rest.head? ≠ some '\n')
  | .value =>
    match mode with
    | .normal =>
      (splitWord rest).1 = [] ∧ (l.text.getLast? = some '-' → rest.head? ≠ some '-')
    | .inValue => (splitValue rest).1 = []
  | _ => True


/-! ## From the scanner to the form -/

theorem comment_fits (gap ds : List Char) :
    (Lexeme.mk gap .comment ('-' :: (splitLine ('-' :: ds)).1)).HasForm .normal ∧
      (Lexeme.mk gap .comment ('-' :: (splitLine ('-' :: ds)).1)).Ends .normal
        (splitLine ('-' :: ds)).2 := by
  have e : splitLine ('-' :: ds) = ('-' :: (splitLine ds).1, (splitLine ds).2) := by
    rw [splitLine, if_neg (by simp [isLineEnd])]
  rw [e, splitLine_eq]
  refine ⟨⟨⟨_, rfl, ?_⟩, rfl⟩, ?_, fun hl => ?_⟩
  · rw [splitLine_eq, splitWhere_fst fun _ => endsLine_none]
  · rw [splitLine_eq, splitWhere_stop]
  · have hr : (splitWhere endsLine ds).1.getLast? = some '\r' := by
      cases hd : (splitWhere endsLine ds).1 with
      | nil => simp [hd] at hl
      | cons d t => simpa [hd] using hl
    simpa [endsLine] using splitWhere_seam hr

theorem word_fits (gap : List Char) (hc : c ∉ ['\n', '\r', ';', '[', ']', '='])
    (hw : Token.isWordStart c = false) (hd : c = '-' → cs.head? ≠ some '-') :
    (Lexeme.mk gap .value (c :: (splitWord cs).1)).HasForm .normal ∧
      (Lexeme.mk gap .value (c :: (splitWord cs).1)).Ends .normal (splitWord cs).2 := by
  simp only [splitWord_eq]
  refine ⟨⟨hc, hw, ?_, ?_⟩, ?_, ?_⟩
  · intro e h
    cases cs with
    | nil => simp [splitWhere] at h
    | cons d ds =>
      have hdd : d ≠ '-' := by simpa using hd e
      rw [splitWhere] at h
      split at h
      · simp at h
      · exact hdd (by simpa using h)
  · rw [splitWord_eq, splitWhere_fst fun _ => endsWord_none]
  · rw [splitWord_eq, splitWhere_stop]
  · intro h
    cases hs : (splitWhere endsWord cs).1 with
    | nil =>
      rw [splitWhere_of_stop hs]
      exact hd (by simpa [hs] using h)
    | cons d ds =>
      have hl : (splitWhere endsWord cs).1.getLast? = some '-' := by simpa [hs] using h
      have hseam := splitWhere_seam hl
      simp only [endsWord, Bool.or_eq_false_iff] at hseam
      simpa using hseam.2

theorem splitNormal_fits (gap cs : List Char) {c : Char}
    (hc : c ∉ ['\n', '\r', ';', '[']) :
    (Lexeme.mk gap (splitNormal c cs).1 (splitNormal c cs).2.1).HasForm .normal ∧
      (Lexeme.mk gap (splitNormal c cs).1 (splitNormal c cs).2.1).Ends .normal
        (splitNormal c cs).2.2 := by
  unfold splitNormal
  split
  · next h => exact ⟨⟨by rw [beq_iff_eq.1 h], rfl⟩, trivial⟩
  next hb =>
  split
  · next h => exact ⟨⟨by rw [beq_iff_eq.1 h], rfl⟩, trivial⟩
  next he =>
  split
  · next h =>
    simp only [Bool.and_eq_true, beq_iff_eq] at h
    obtain ⟨ds, rfl⟩ : ∃ ds, cs = '-' :: ds := head?_eq_some_iff.1 h.2
    rw [h.1]
    exact comment_fits gap ds
  next hh =>
  split
  · next hw =>
    refine ⟨⟨⟨hw, fun d hd => mem_takeWhile_imp hd⟩, by simp⟩, ?_, by simp⟩
    cases hd : cs.dropWhile Token.isWordChar with
    | nil => rfl
    | cons d ds =>
      have := head?_dropWhile_not Token.isWordChar cs
      rw [hd] at this
      simpa using this
  · next hw =>
    refine word_fits gap ?_ (by simpa using hw) fun e e' => hh (by simp [e, e'])
    simp only [mem_cons, not_mem_nil, or_false, not_or, beq_iff_eq] at hc hb he ⊢
    exact ⟨hc.1, hc.2.1, hc.2.2.1, hc.2.2.2, hb, he⟩

/-- Where a property starts, the scanner cuts its name. -/
theorem splitNormal_of_startsProperty (h : startsProperty (c :: cs) = true) :
    splitNormal c cs =
      (.identifier, c :: cs.takeWhile Token.isWordChar, cs.dropWhile Token.isWordChar) ∧
      Token.isWordStart c = true ∧ assigns (cs.dropWhile Token.isWordChar) = true := by
  simp only [startsProperty, Bool.and_eq_true] at h
  have sign := ne_of_isWordStart h.1
  refine ⟨?_, h.1, h.2⟩
  rw [splitNormal, if_neg (by simpa using sign ']' (by decide)),
    if_neg (by simpa using sign '=' (by decide)),
    if_neg (by simp [sign '-' (by decide)]), if_pos h.1]

theorem splitText_fits (mode : ScanMode) (gap : List Char) (hg : isGap c cs = false) :
    (Lexeme.mk gap (splitText mode (!gap.isEmpty) c cs).1
        (splitText mode (!gap.isEmpty) c cs).2.1).HasForm mode ∧
      (Lexeme.mk gap (splitText mode (!gap.isEmpty) c cs).1
        (splitText mode (!gap.isEmpty) c cs).2.1).Ends mode
        (splitText mode (!gap.isEmpty) c cs).2.2 := by
  unfold splitText
  split
  · next h => exact ⟨Or.inl (by rw [beq_iff_eq.1 h]), trivial⟩
  · next hn =>
    split
    · next h =>
      have e : c = '\r' := beq_iff_eq.1 h
      obtain ⟨ds, rfl⟩ : ∃ ds, cs = '\n' :: ds := by
        apply head?_eq_some_iff.1
        simpa [isGap, isLineBlank, e] using hg
      exact ⟨Or.inr (by rw [e]; rfl), trivial⟩
    · next hr =>
      split
      · next h => exact ⟨congrArg ([·]) (beq_iff_eq.1 h), trivial⟩
      · next hs =>
        split
        · next h => exact ⟨congrArg ([·]) (beq_iff_eq.1 h), trivial⟩
        · next hb =>
          have hc : c ∉ ['\n', '\r', ';', '['] := by
            simp only [beq_iff_eq] at hn hr hs hb
            simp [hn, hr, hs, hb]
          split
          · next hv =>
            simp only [Bool.and_eq_true, beq_iff_eq, Bool.not_eq_true', Bool.and_eq_false_iff] at hv
            obtain ⟨rfl, hv⟩ := hv
            refine ⟨⟨⟨hc, splitValue_fst cs⟩, fun hgap => ?_⟩, splitValue_stop cs⟩
            rw [← startsProperty_append_stop (cons_ne_nil _ _) (splitValue_stop cs),
              cons_append, splitValue_append]
            rcases hv with hv | hv
            · exact absurd (by simpa using hv) hgap
            · exact hv
          · next hv =>
            cases mode with
            | normal => exact splitNormal_fits gap cs hc
            | inValue =>
              simp only [beq_self_eq_true, Bool.true_and, Bool.not_eq_true', Bool.not_eq_false,
                Bool.and_eq_true] at hv
              obtain ⟨e, hw, ha⟩ := splitNormal_of_startsProperty hv.2
              have ends := (splitNormal_fits gap cs hc).2
              rw [e] at ends ⊢
              exact ⟨⟨⟨hw, fun d hd => mem_takeWhile_imp hd⟩, fun _ => by simpa using hv.1⟩,
                ends.1, fun _ => ha⟩

theorem HasForm.text_ne (h : l.HasForm mode) : l.text ≠ [] ∧ l.text ≠ ['\r'] := by
  obtain ⟨gap, kind, text⟩ := l
  cases kind <;> simp only [HasForm] at h
  case newline => rcases h with rfl | rfl <;> simp
  case semicolon => simp [h]
  case leftBracket => simp [h]
  case rightBracket => simp [h.1]
  case equals => simp [h.1]
  case identifier =>
    cases text with
    | nil => exact absurd h.1 id
    | cons c cs =>
      refine ⟨cons_ne_nil _ _, fun e => ?_⟩
      obtain ⟨rfl, -⟩ := cons_eq_cons.1 e
      exact absurd h.1.1 (by decide)
  case value =>
    cases text with
    | nil => cases mode <;> simp [IsWord, IsValue] at h
    | cons c cs =>
      refine ⟨cons_ne_nil _ _, fun e => ?_⟩
      obtain ⟨rfl, -⟩ := cons_eq_cons.1 e
      cases mode <;> simp [IsWord, IsValue] at h
  case comment =>
    obtain ⟨⟨cs, rfl, -⟩, -⟩ := h
    simp

theorem Formed.kind_ne (h : l.Formed mode) : l.kind ≠ .endOfFile := by
  intro hk
  have form := h.2
  simp only [HasForm, hk] at form

theorem splitGap_not_isGap {gap ds : List Char} (h : splitGap cs = (gap, c :: ds)) :
    isGap c ds = false := by
  induction cs generalizing gap with
  | nil => simp [splitGap] at h
  | cons d cs ih =>
    rw [splitGap] at h
    split at h
    · exact ih (Prod.ext rfl (Prod.ext_iff.1 h).2)
    · next hg =>
      obtain ⟨rfl, rfl⟩ := cons_eq_cons.1 (Prod.ext_iff.1 h).2
      simpa using hg

/-- What the scanner finds first has the form of its kind and stops where it should. -/
theorem fits_of_next (h : Lexeme.next mode cs = (l, rest)) (hk : l.kind ≠ .endOfFile) :
    cs = l.gap ++ (l.text ++ rest) ∧ l.Formed mode ∧ l.Ends mode rest := by
  have happ := Lexeme.next_append mode cs
  simp only [h, append_assoc] at happ
  refine ⟨happ.symm, ?_⟩
  unfold Lexeme.next at h
  split at h
  · next e =>
    obtain ⟨rfl, -⟩ := Prod.ext_iff.1 h
    exact absurd rfl hk
  · next gap c ds e =>
    obtain ⟨rfl, rfl⟩ := Prod.mk.inj h
    obtain ⟨form, ends⟩ := splitText_fits mode gap (splitGap_not_isGap e)
    obtain ⟨hne, hret⟩ := form.text_ne
    refine ⟨⟨(splitGap_append_iff _ _ (splitText mode (!gap.isEmpty) c ds).2.2 hne hret).1 ?_,
      form⟩, ends⟩
    rw [happ, e, splitText_append]

theorem takeWhile_eq_nil {p : Char → Bool} (h : cs.head?.any p = false) : cs.takeWhile p = [] := by
  cases cs with
  | nil => rfl
  | cons c cs => exact takeWhile_cons_of_neg (by simpa using h)

theorem dropWhile_eq_self {p : Char → Bool} (h : cs.head?.any p = false) : cs.dropWhile p = cs := by
  cases cs with
  | nil => rfl
  | cons c cs => exact dropWhile_cons_of_neg (by simpa using h)

theorem splitNormal_of_form (gap : List Char) {cs rest : List Char} {c : Char} {kind : TokenKind}
    (hf : (Lexeme.mk gap kind (c :: cs)).HasForm .normal)
    (he : (Lexeme.mk gap kind (c :: cs)).Ends .normal rest)
    (hc : c ∉ ['\n', '\r', ';', '[']) : splitNormal c (cs ++ rest) = (kind, c :: cs, rest) := by
  cases kind <;> simp only [HasForm, Ends] at hf he
  case newline => rcases hf with h | h <;> simp [(cons_eq_cons.1 h).1] at hc
  case semicolon => simp [(cons_eq_cons.1 hf).1] at hc
  case leftBracket => simp [(cons_eq_cons.1 hf).1] at hc
  case rightBracket =>
    obtain ⟨rfl, rfl⟩ := cons_eq_cons.1 hf.1
    rfl
  case equals =>
    obtain ⟨rfl, rfl⟩ := cons_eq_cons.1 hf.1
    rfl
  case comment =>
    obtain ⟨⟨ds, e, hs⟩, -⟩ := hf
    obtain ⟨rfl, rfl⟩ := cons_eq_cons.1 e
    have hseam : ('-' :: ds).getLast? = some '\r' → rest.head? ≠ some '\n' := fun h =>
      he.2 (by rwa [getLast?_cons_of_ne_nil (cons_ne_nil _ _)])
    have hd : splitLine ('-' :: ds) = ('-' :: ds, []) := by
      rw [splitLine, if_neg (by simp [isLineEnd]), hs]
    have e : splitLine ('-' :: ds ++ rest) = ('-' :: ds, rest) := by
      rw [splitLine_eq] at hd he ⊢
      rw [splitWhere_append_stop he.1 fun a ha => endsLine_seam fun e => hseam (e ▸ ha), hd]
      rfl
    rw [splitNormal, if_neg (by decide), if_neg (by decide), if_pos (by simp), e]
  case identifier =>
    obtain ⟨⟨hw, hcs⟩, -⟩ := hf
    have sign := ne_of_isWordStart hw
    rw [splitNormal, if_neg (by simpa using sign ']' (by decide)),
      if_neg (by simpa using sign '=' (by decide)),
      if_neg (by simp [sign '-' (by decide)]), if_pos hw,
      takeWhile_append_of_pos hcs, dropWhile_append_of_pos hcs,
      takeWhile_eq_nil he.1, dropWhile_eq_self he.1, append_nil]
  case value =>
    obtain ⟨hs, hw, hd, hword⟩ := hf
    have hdash : ¬ (c == '-' && (cs ++ rest).head? == some '-') = true := by
      simp only [Bool.and_eq_true, beq_iff_eq, not_and]
      intro e
      cases cs with
      | nil => exact he.2 (by rw [e]; rfl)
      | cons d ds => exact hd e
    have hseam : cs.getLast? = some '-' → rest.head? ≠ some '-' := (seam_cons he.2).1
    simp only [mem_cons, not_or] at hs
    rw [splitNormal, if_neg (by simpa using hs.2.2.2.2.1), if_neg (by simpa using hs.2.2.2.2.2),
      if_neg hdash, if_neg (by simp [hw])]
    rw [splitWord_eq] at hword he ⊢
    rw [splitWhere_append_stop he.1 fun a ha => endsWord_seam fun e => hseam (e ▸ ha), hword]
    rfl

/-- The signs that are cut first, in every mode. -/
theorem splitText_of_sign {mode : ScanMode} {gap cs rest : List Char} {c : Char} {kind : TokenKind}
    (hf : (Lexeme.mk gap kind (c :: cs)).HasForm mode) (hc : c ∈ ['\n', '\r', ';', '[']) :
    splitText mode (!gap.isEmpty) c (cs ++ rest) = (kind, c :: cs, rest) := by
  -- a name, a word, a value and a comment start with none of these
  cases kind <;> simp only [HasForm] at hf
  case newline =>
    rcases hf with h | h
    · obtain ⟨rfl, rfl⟩ := cons_eq_cons.1 h
      rfl
    · obtain ⟨rfl, rfl⟩ := cons_eq_cons.1 h
      rfl
  case semicolon =>
    obtain ⟨rfl, rfl⟩ := cons_eq_cons.1 hf
    rfl
  case leftBracket =>
    obtain ⟨rfl, rfl⟩ := cons_eq_cons.1 hf
    rfl
  case rightBracket => simp [(cons_eq_cons.1 hf.1).1] at hc
  case equals => simp [(cons_eq_cons.1 hf.1).1] at hc
  case comment =>
    obtain ⟨⟨ds, e, -⟩, -⟩ := hf
    simp [(cons_eq_cons.1 e).1] at hc
  case identifier =>
    have hw : Token.isWordStart c = false := isWordStart_eq_false (by
      simp only [mem_cons, not_mem_nil, or_false] at hc ⊢
      rcases hc with h | h | h | h <;> simp [h])
    rw [hf.1.1] at hw
    exact absurd hw (by decide)
  case value =>
    cases mode with
    | normal =>
      refine absurd ?_ hf.1
      simp only [mem_cons, not_mem_nil, or_false] at hc ⊢
      rcases hc with h | h | h | h <;> simp [h]
    | inValue => exact absurd hc hf.1.1

theorem splitText_of_form {gap : List Char} {kind : TokenKind}
    (hf : (Lexeme.mk gap kind (c :: cs)).HasForm mode)
    (he : (Lexeme.mk gap kind (c :: cs)).Ends mode rest) :
    splitText mode (!gap.isEmpty) c (cs ++ rest) = (kind, c :: cs, rest) := by
  by_cases hc : c ∈ ['\n', '\r', ';', '[']
  · exact splitText_of_sign hf hc
  have hs := hc
  simp only [mem_cons, not_mem_nil, or_false, not_or] at hs
  rw [splitText, if_neg (by simpa using hs.1), if_neg (by simpa using hs.2.1),
    if_neg (by simpa using hs.2.2.1), if_neg (by simpa using hs.2.2.2)]
  cases mode with
  | normal =>
    exact splitNormal_of_form gap hf he hc
  | inValue =>
    cases kind <;> simp only [HasForm, Ends] at hf he
    case newline => rcases hf with h | h <;> simp [(cons_eq_cons.1 h).1] at hs
    case semicolon => simp [(cons_eq_cons.1 hf).1] at hs
    case leftBracket => simp [(cons_eq_cons.1 hf).1] at hs
    case rightBracket => simp at hf
    case equals => simp at hf
    case comment => simp at hf
    case identifier =>
      obtain ⟨hname, hgap⟩ := hf
      have hstart : startsProperty (c :: (cs ++ rest)) = true := by
        rw [startsProperty, hname.1, dropWhile_append_of_pos hname.2,
          dropWhile_eq_self he.1, Bool.true_and]
        exact he.2 trivial
      rw [if_neg (by simp [hstart, hgap trivial])]
      exact splitNormal_of_form gap ⟨hname, by simp⟩ ⟨he.1, by simp⟩ hc
    case value =>
      obtain ⟨hvalue, hgap⟩ := hf
      have hstart : gap = [] ∨ startsProperty (c :: (cs ++ rest)) = false := by
        rw [← cons_append, startsProperty_append_stop (cons_ne_nil _ _) he]
        exact (Classical.em (gap = [])).imp_right hgap
      have hseam : cs.getLast? ≠ some '\r' := by
        have := splitValue_seam cs
        rwa [hvalue.2] at this
      have e : splitValue (cs ++ rest) = (cs, rest) := by
        rw [splitValue_append_stop he fun h => absurd h hseam, hvalue.2]
        rfl
      rw [if_pos (by simpa using hstart), e]

/-- A lexeme with the form of its kind is found by the scanner where it stops. -/
theorem next_of_fits (hf : l.Formed mode) (he : l.Ends mode rest) :
    Lexeme.next mode (l.gap ++ (l.text ++ rest)) = (l, rest) := by
  obtain ⟨hgap, form⟩ := hf
  obtain ⟨hne, hret⟩ := form.text_ne
  have hsplit := (splitGap_append_iff _ _ rest hne hret).2 hgap
  obtain ⟨gap, kind, text⟩ := l
  obtain ⟨c, cs, rfl⟩ := exists_cons_of_ne_nil hne
  rw [Lexeme.next, hsplit, cons_append]
  simp only [splitText_of_form form he]

end Lexeme

/-! ## Lists of lexemes -/

/-- The text that lexemes spell. -/
def spell (ls : List Lexeme) : List Char :=
  ls.flatMap fun l => l.gap ++ l.text

@[simp] theorem spell_nil : spell [] = [] := rfl

@[simp] theorem spell_cons (l : Lexeme) (ls : List Lexeme) :
    spell (l :: ls) = l.gap ++ (l.text ++ spell ls) := by
  simp [spell]

theorem spell_append (ls ms : List Lexeme) : spell (ls ++ ms) = spell ls ++ spell ms := by
  simp [spell]

/-- Lexemes that follow each other as the scanner cuts them, down to the end of the text. -/
inductive Lexed : ScanMode → List Lexeme → Prop
  | stop {mode : ScanMode} {gap : List Char} (h : splitGap gap = (gap, [])) :
      Lexed mode [⟨gap, .endOfFile, []⟩]
  | cons {mode : ScanMode} {l : Lexeme} {ls : List Lexeme} (formed : l.Formed mode)
      (ends : l.Ends mode (spell ls)) (rest : Lexed (mode.after l.kind) ls) :
      Lexed mode (l :: ls)

theorem Lexeme.next_endOfFile {cs : List Char} (h : (Lexeme.next mode cs).1.kind = .endOfFile) :
    Lexeme.next mode cs = (⟨cs, .endOfFile, []⟩, []) ∧ splitGap cs = (cs, []) := by
  have hsplit := splitGap_append cs
  unfold Lexeme.next at h ⊢
  split
  · next gap e =>
    have hgap : gap = cs := by simpa [e] using hsplit
    rw [hgap] at e
    exact ⟨by rw [hgap], e⟩
  · next gap c ds e =>
    have form := (Lexeme.splitText_fits mode gap (Lexeme.splitGap_not_isGap e)).1
    have hk : (splitText mode (!gap.isEmpty) c ds).1 = .endOfFile := by simpa [e] using h
    simp only [Lexeme.HasForm, hk] at form

theorem lexed_lexemes (mode : ScanMode) (cs : List Char) :
    Lexed mode (lexemes mode cs) ∧ spell (lexemes mode cs) = cs := by
  fun_induction lexemes mode cs with
  | case1 mode cs step h =>
    obtain ⟨e, hgap⟩ := Lexeme.next_endOfFile h
    rw [show step.1 = ⟨cs, .endOfFile, []⟩ from congrArg Prod.fst e]
    exact ⟨.stop hgap, by simp⟩
  | case2 mode cs step h ih =>
    obtain ⟨e, formed, ends⟩ := Lexeme.fits_of_next (Prod.eta step) h
    refine ⟨.cons formed ?_ ih.1, ?_⟩
    · rw [ih.2]
      exact ends
    · rw [spell_cons, ih.2]
      exact e.symm

theorem lexemes_of_lexed {ls : List Lexeme} (h : Lexed mode ls) : lexemes mode (spell ls) = ls := by
  induction h with
  | @stop mode gap h =>
    have e : Lexeme.next mode (spell [⟨gap, .endOfFile, []⟩]) = (⟨gap, .endOfFile, []⟩, []) := by
      simp [Lexeme.next, h]
    rw [lexemes, e]
    rfl
  | @cons mode l ls formed ends rest ih =>
    have hk : l.kind ≠ .endOfFile := formed.kind_ne
    rw [lexemes, spell_cons, Lexeme.next_of_fits formed ends]
    simp only [if_neg hk, ih]

/-- Scanning a text gives the lexed list that spells it. -/
theorem lexemes_eq_iff {cs : List Char} {ls : List Lexeme} :
    lexemes mode cs = ls ↔ Lexed mode ls ∧ spell ls = cs := by
  constructor
  · rintro rfl
    exact lexed_lexemes mode cs
  · rintro ⟨h, rfl⟩
    exact lexemes_of_lexed h

end ModCheck
