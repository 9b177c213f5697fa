import ModCheck.Proofs.Insertion
import ModCheck.Proofs.Recovery

/-
  A token whose text is replaced. The scanner looks ahead, so a change further on can move the end
  of what stands before it. `Alike` says when two texts look the same from before: then the lexemes
  before them stay as they are (`lexed_swap`). If one lexeme gets another text on its line, all
  tokens are the old ones, the later ones moved (`scan_reworded`); they are read into the old blocks
  with that one token changed, and a correction on the replaced characters gives that text
  (`applyAll_single`).
-/

namespace ModCheck

open List
open Text (isBlank)

variable {before cs cs' : List Char} {mode : ScanMode} {source : String} {t : Token}

/-! ## Texts that look alike from before -/

/-- A first character that ends no value and joins no comment or line break. -/
def isPlainStart (c : Char) : Bool :=
  !isBlank c && c != ';' && c != '[' && c != '-'

/-- Characters of a name. -/
def isNamePart (c : Char) : Bool :=
  Token.isWordChar c || Token.isWordStart c

/-- Two texts between which the scanner, looking ahead, sees no difference. -/
structure Alike (cs cs' : List Char) : Prop where
  first : ∃ c, cs.head? = some c ∧ isPlainStart c = true
  first' : ∃ c, cs'.head? = some c ∧ isPlainStart c = true
  delimiter : cs.head?.any isDelimiter = cs'.head?.any isDelimiter
  equals : assigns cs = assigns cs'
  property : startsProperty cs = startsProperty cs'

/-- If a part of a name stands before two texts, neither goes on with it. -/
def Parted (before cs cs' : List Char) : Prop :=
  ∀ c, before.getLast? = some c → isNamePart c = true →
    cs.head?.any Token.isWordChar = false ∧ cs'.head?.any Token.isWordChar = false

theorem Alike.symm (h : Alike cs cs') : Alike cs' cs :=
  ⟨h.first', h.first, h.delimiter.symm, h.equals.symm, h.property.symm⟩

/-- What holds behind a text holds behind each end of it. -/
theorem Parted.of_append {more : List Char} (h : Parted (more ++ before) cs cs') :
    Parted before cs cs' := by
  intro c hc
  apply h c
  rw [getLast?_append, hc]
  rfl

theorem isPlainStart_iff {c : Char} :
    isPlainStart c = true ↔ isBlank c = false ∧ c ≠ ';' ∧ c ≠ '[' ∧ c ≠ '-' := by
  simp [isPlainStart, and_assoc]

theorem ne_break_of_not_isBlank {c : Char} (h : isBlank c = false) : c ≠ '\n' ∧ c ≠ '\r' := by
  constructor
  · rintro rfl
    exact absurd h (by decide)
  · rintro rfl
    exact absurd h (by decide)

section

variable {cs cs' : List Char} (alike : Alike cs cs')
include alike

theorem Alike.head?_ne : cs.head? ≠ some '\n' ∧ cs.head? ≠ some '-' := by
  obtain ⟨c, hc, hplain⟩ := alike.first
  obtain ⟨hblank, -, -, hdash⟩ := isPlainStart_iff.1 hplain
  rw [hc]
  exact ⟨by simpa using (ne_break_of_not_isBlank hblank).1, by simpa using hdash⟩

theorem Alike.assigns_append (before : List Char) :
    assigns (before ++ cs) = assigns (before ++ cs') := by
  unfold assigns
  rw [dropWhile_append, dropWhile_append]
  split
  · exact alike.equals
  · next hne =>
    have hne' : before.dropWhile isLineBlank ≠ [] := fun e => hne (by rw [e]; rfl)
    rw [head?_append_of_ne_nil _ hne', head?_append_of_ne_nil _ hne']

theorem Alike.startsProperty_append (parted : Parted before cs cs') :
    startsProperty (before ++ cs) = startsProperty (before ++ cs') := by
  cases before with
  | nil => exact alike.property
  | cons c ds =>
    rw [cons_append, cons_append, startsProperty, startsProperty]
    by_cases hstart : Token.isWordStart c = true
    · congr 1
      rw [dropWhile_append, dropWhile_append]
      split
      · next hall =>
        -- the whole text before is a name, and it ends here
        have hlast : ∃ d, (c :: ds).getLast? = some d ∧ isNamePart d = true := by
          refine ⟨_, getLast?_eq_some_getLast (cons_ne_nil c ds), ?_⟩
          rcases mem_cons.1 (getLast_mem (cons_ne_nil c ds)) with e | e
          · rw [e, isNamePart, hstart, Bool.or_true]
          · have := dropWhile_eq_nil_iff.1 (List.isEmpty_iff.1 hall) _ e
            rw [isNamePart, this, Bool.true_or]
        obtain ⟨d, hd, hname⟩ := hlast
        obtain ⟨hcs, hcs'⟩ := parted d hd hname
        rw [Lexeme.dropWhile_eq_self hcs, Lexeme.dropWhile_eq_self hcs']
        exact alike.equals
      · exact alike.assigns_append _
    · simp [hstart]

theorem Alike.splitValue_ne_nil : (splitValue cs).1 ≠ [] := by
  obtain ⟨c, hc, hplain⟩ := alike.first
  obtain ⟨hblank, hs, hb, -⟩ := isPlainStart_iff.1 hplain
  obtain ⟨ds, rfl⟩ := head?_eq_some_iff.1 hc
  intro h
  rcases splitValue_cons_eq_nil.1 h with e | e | e | ⟨e, -⟩
  · exact hs e
  · exact hb e
  · simp [isLineEnd, ne_break_of_not_isBlank hblank] at e
  · rw [isBlank_of_isGap e] at hblank
    exact absurd hblank (by decide)

theorem Alike.splitGap_eq : splitGap cs = ([], cs) := by
  obtain ⟨c, hc, hplain⟩ := alike.first
  obtain ⟨ds, rfl⟩ := head?_eq_some_iff.1 hc
  rw [splitGap, if_neg]
  intro hgap
  have hblank := (isPlainStart_iff.1 hplain).1
  rw [isBlank_of_isGap hgap] at hblank
  exact absurd hblank (by decide)

/-- Behind blanks, both texts start a property or neither does. -/
theorem Alike.startsProperty_splitGap (parted : Parted before cs cs') :
    startsProperty (splitGap (before ++ cs)).2 = startsProperty (splitGap (before ++ cs')).2 := by
  by_cases hgap : (splitGap before).2 = []
  · have hall : splitGap before = (before, []) := by
      have happ := splitGap_append before
      rw [hgap, append_nil] at happ
      exact Prod.ext happ hgap
    rw [splitGap_append_of_gap hall fun _ => alike.head?_ne.1,
      splitGap_append_of_gap hall fun _ => alike.symm.head?_ne.1, alike.splitGap_eq,
      alike.symm.splitGap_eq]
    exact alike.property
  · rw [splitGap_append_right hgap, splitGap_append_right hgap]
    apply alike.startsProperty_append
    rw [← splitGap_append before] at parted
    exact parted.of_append

theorem Alike.splitValue_append (parted : Parted before cs cs')
    (h : (splitValue (before ++ cs)).1 = []) : (splitValue (before ++ cs')).1 = [] := by
  induction before with
  | nil => exact absurd h alike.splitValue_ne_nil
  | cons d ds ih =>
    have parted' : Parted ds cs cs' := by
      rw [← singleton_append] at parted
      exact parted.of_append
    rw [cons_append] at h ⊢
    apply splitValue_cons_eq_nil.2
    rcases splitValue_cons_eq_nil.1 h with e | e | e | ⟨hgap, e⟩
    · exact Or.inl e
    · exact Or.inr (Or.inl e)
    · rw [isLineEnd_append fun _ _ => alike.head?_ne.1] at e
      rw [isLineEnd_append fun _ _ => alike.symm.head?_ne.1]
      exact Or.inr (Or.inr (Or.inl e))
    · rw [isGap_append fun _ _ => alike.head?_ne.1] at hgap
      rw [isGap_append fun _ _ => alike.symm.head?_ne.1]
      refine Or.inr (Or.inr (Or.inr ⟨hgap, ?_⟩))
      rcases e with e | e
      · exact Or.inl (by rwa [← alike.startsProperty_splitGap parted'])
      · exact Or.inr (ih parted' e)

end

/-- A name consists of parts of a name. -/
theorem IsName.isNamePart {name : List Char} (h : IsName name) {c : Char} (hc : c ∈ name) :
    isNamePart c = true := by
  cases name with
  | nil => exact h.elim
  | cons d ds =>
    rcases mem_cons.1 hc with rfl | hc
    · rw [ModCheck.isNamePart, h.1, Bool.or_true]
    · rw [ModCheck.isNamePart, h.2 c hc, Bool.true_or]

/-- A lexeme stops where it did when a text further on is exchanged for one that looks alike. -/
theorem Lexeme.Ends.swap {l : Lexeme} (form : l.HasForm mode) (h : l.Ends mode (before ++ cs))
    (alike : Alike cs cs') (parted : Parted (l.text ++ before) cs cs') :
    l.Ends mode (before ++ cs') := by
  have parted' : Parted before cs cs' := parted.of_append
  cases before with
  | nil =>
    obtain ⟨gap, kind, text⟩ := l
    obtain ⟨c, hc, hplain⟩ := alike.first
    cases kind <;> simp only [Lexeme.Ends] at h form ⊢
    case identifier =>
      refine ⟨?_, fun hm => by rw [← alike.assigns_append]; exact h.2 hm⟩
      obtain ⟨c, hc⟩ : ∃ c, text.getLast? = some c := by
        cases text with
        | nil => exact form.1.elim
        | cons c cs => exact ⟨_, getLast?_eq_some_getLast (cons_ne_nil c cs)⟩
      have hname := form.1.isNamePart (mem_of_getLast? hc)
      exact (parted c (by rwa [append_nil]) hname).2
    case comment =>
      obtain ⟨ds, rfl⟩ := head?_eq_some_iff.1 hc
      have hend := splitLine_cons_eq_nil.1 h.1
      simp [isLineEnd, ne_break_of_not_isBlank (isPlainStart_iff.1 hplain).1] at hend
    case value =>
      cases mode with
      | inValue => exact alike.splitValue_append parted' h
      | normal =>
        refine ⟨?_, fun _ => alike.symm.head?_ne.2⟩
        obtain ⟨c', hc', -⟩ := alike.first'
        have hdelimiter := alike.delimiter
        obtain ⟨ds, rfl⟩ := head?_eq_some_iff.1 hc
        obtain ⟨ds', rfl⟩ := head?_eq_some_iff.1 hc'
        simp only [head?_cons, Option.any_some] at hdelimiter
        apply splitWord_cons_eq_nil.2
        rcases splitWord_cons_eq_nil.1 h.1 with e | ⟨e, -⟩
        · exact Or.inl (by rwa [← hdelimiter])
        · exact absurd e (isPlainStart_iff.1 hplain).2.2.2
  | cons d ds =>
    rw [cons_append] at h ⊢
    refine h.of_cons (fun _ hl => ?_) (fun _ hd => ?_) (fun _ hs => ?_)
      fun _ hv => alike.splitValue_append parted' hv
    · rw [isLineEnd_append fun _ _ => alike.head?_ne.1] at hl
      rwa [isLineEnd_append fun _ _ => alike.symm.head?_ne.1]
    · cases ds with
      | nil => exact absurd hd alike.head?_ne.2
      | cons b bs => exact hd
    · rw [← cons_append, ← alike.assigns_append]
      exact hs

/-- Lexemes stay as they are when what follows them is exchanged for something that looks alike. -/
theorem lexed_swap {ls ms ms' : List Lexeme} {gap : List Char} (h : Lexed mode (ls ++ ms))
    (hms : ms ≠ []) (spelled : spell ms = gap ++ cs) (spelled' : spell ms' = gap ++ cs')
    (alike : Alike cs cs') (parted : Parted (spell ls ++ gap) cs cs')
    (behind : ∀ last, Lexed last ms → Lexed last ms') : Lexed mode (ls ++ ms') := by
  induction ls generalizing mode with
  | nil => exact behind mode h
  | cons l ls ih =>
    rw [cons_append] at h ⊢
    obtain ⟨formed, ends, rest⟩ := h.of_cons (Or.inr (by simp [hms]))
    have parted' : Parted (l.text ++ (spell ls ++ gap)) cs cs' := by
      rw [spell_cons, append_assoc, append_assoc] at parted
      exact parted.of_append
    refine .cons formed ?_ (ih rest parted'.of_append)
    rw [spell_append, spelled, ← append_assoc] at ends
    rw [spell_append, spelled', ← append_assoc]
    exact ends.swap formed.2 alike parted'

/-! ## Places behind a token -/

/-- Where a place behind a token moves to when the token gets another text. -/
def Place.pushed (target : Token) (text : List Char) (p : Place) : Place :=
  ⟨p.offset - target.endOffset + (target.offset + byteLength text),
   if p.position.line = target.line then
     ⟨target.line, p.position.column - target.endColumn + (target.start.column + text.length)⟩
   else p.position⟩

/-- A place that is not before the end of a token. -/
structure Place.Behind (target : Token) (p : Place) : Prop where
  offset : target.endOffset ≤ p.offset
  line : target.line ≤ p.position.line
  column : p.position.line = target.line → target.endColumn ≤ p.position.column

section

variable {target : Token} {p : Place} (text : List Char)

theorem Place.after_cons (p : Place) (c : Char) (cs : List Char) :
    p.after (c :: cs) = Place.after ⟨p.offset + c.utf8Size, p.position.next c⟩ cs := by
  simp only [Place.after, byteLength, Position.after_cons, Nat.add_assoc]

theorem Place.Behind.next (h : p.Behind target) (c : Char) :
    Place.Behind target ⟨p.offset + c.utf8Size, p.position.next c⟩ := by
  obtain ⟨hoffset, hline, hcolumn⟩ := h
  unfold Position.next
  split
  · exact ⟨Nat.le_add_right_of_le hoffset, Nat.le_succ_of_le hline,
      fun e => absurd e (Nat.ne_of_gt (Nat.lt_succ_of_le hline))⟩
  · exact ⟨Nat.le_add_right_of_le hoffset, hline, fun e => Nat.le_succ_of_le (hcolumn e)⟩

theorem Place.Behind.pushed_next (h : p.Behind target) (c : Char) :
    Place.pushed target text ⟨p.offset + c.utf8Size, p.position.next c⟩ =
      ⟨(p.pushed target text).offset + c.utf8Size, (p.pushed target text).position.next c⟩ := by
  obtain ⟨hoffset, hline, hcolumn⟩ := h
  simp only [Place.pushed, Place.mk.injEq]
  refine ⟨by omega, ?_⟩
  by_cases hc : c = '\n'
  · have hnext : ∀ q : Position, q.next c = ⟨q.line + 1, 0⟩ := fun q => by simp [hc, Position.next]
    rw [hnext, hnext, if_neg (by dsimp only; omega)]
    split
    · next e => rw [e]
    · rfl
  · have hnext : ∀ q : Position, q.next c = ⟨q.line, q.column + 1⟩ := fun q => by
      simp [hc, Position.next]
    rw [hnext, hnext]
    split
    · next e =>
      have := hcolumn e
      simp only [Position.mk.injEq, true_and]
      omega
    · rfl

theorem Place.Behind.pushed_after (h : p.Behind target) (cs : List Char) :
    (p.after cs).Behind target ∧
      (p.after cs).pushed target text = (p.pushed target text).after cs := by
  induction cs generalizing p with
  | nil => exact ⟨h, rfl⟩
  | cons c cs ih =>
    rw [Place.after_cons, Place.after_cons, ← h.pushed_next text c]
    exact ih (h.next c)

end

/-! ## Tokens -/

/-- A token after the text of `target` was replaced, as far as its place goes. -/
def Token.push (target : Token) (text : List Char) (u : Token) : Token :=
  if target.offset < u.offset then
    let place := Place.pushed target text ⟨u.offset, u.start⟩
    { u with start := place.position, offset := place.offset }
  else u

/-- A token after the text of `target` was replaced. -/
def Token.rewording (target : Token) (text : String) (u : Token) : Token :=
  { target.push text.toList u with text := if u = target then text else u.text }

section

variable (target : Token) (text : String) (u : Token)

@[simp] theorem Token.push_line : (target.push text.toList u).line = u.line := by
  unfold Token.push Place.pushed Token.line
  split
  · dsimp only
    split
    · next e => exact e.symm
    · rfl
  · rfl

@[simp] theorem Token.push_lead : (target.push text.toList u).lead = u.lead := by
  unfold Token.push
  split <;> rfl

@[simp] theorem Token.push_kind : (target.push text.toList u).kind = u.kind := by
  unfold Token.push
  split <;> rfl

@[simp] theorem Token.push_text : (target.push text.toList u).text = u.text := by
  unfold Token.push
  split <;> rfl

@[simp] theorem Token.rewording_kind : (target.rewording text u).kind = u.kind :=
  Token.push_kind target text u

theorem Token.rewording_text :
    (target.rewording text u).text = if u = target then text else u.text := rfl

theorem Token.rewording_self : target.rewording text target = { target with text } := by
  simp [Token.rewording, Token.push]

variable {target u}

theorem Token.rewording_of_ne (h : u ≠ target) :
    target.rewording text u = target.push text.toList u := by
  have hu := Token.push_text target text u
  rw [Token.rewording, if_neg h]
  cases hp : target.push text.toList u
  rw [hp] at hu
  simp [← hu]

theorem Token.rewording_of_lt (h : u.offset < target.offset) : target.rewording text u = u := by
  rw [Token.rewording_of_ne text (by rintro rfl; omega), Token.push, if_neg (by omega)]

end

/-- Tokens behind the target are moved, and nothing else. -/
theorem placeLexemes_pushed {target : Token} (text : String) (ht : target.offset < target.endOffset)
    {place : Place} (h : place.Behind target) (ls : List Lexeme) :
    placeLexemes (place.pushed target text.toList) ls =
      (placeLexemes place ls).map (target.rewording text) := by
  induction ls generalizing place with
  | nil => rfl
  | cons l ls ih =>
    obtain ⟨hgap, hgap'⟩ := h.pushed_after text.toList l.gap
    obtain ⟨htext, htext'⟩ := hgap.pushed_after text.toList l.text
    rw [placeLexemes, ← hgap', ← htext', ih htext]
    congr 1
    have hoffset : target.offset < (l.toToken place).offset := by
      have := hgap.offset
      simp only [Lexeme.toToken]
      omega
    rw [Token.rewording_of_ne text (by intro e; rw [e] at hoffset; omega), Token.push,
      if_pos hoffset, Lexeme.toToken, ← hgap']
    rfl

/-- Lexemes that take up room stand before what follows them. -/
theorem Segment.offset_lt {rest : List Char} {last : ScanMode} {ls : List Lexeme}
    (h : Segment rest last mode ls) (place : Place) :
    ∀ u ∈ placeLexemes place ls, u.offset < (place.after (spell ls)).offset := by
  induction h generalizing place with
  | nil => simp [placeLexemes]
  | @cons mode l ls formed ends tail ih =>
    intro u hu
    have hne : 0 < byteLength l.text := by
      obtain ⟨c, cs, e⟩ := exists_cons_of_ne_nil formed.2.text_ne.1
      have := c.utf8Size_pos
      rw [e, byteLength]
      omega
    rw [spell_cons, Place.after_append, Place.after_append]
    rcases mem_cons.1 hu with rfl | hu
    · simp only [Lexeme.toToken, Place.after]
      omega
    · exact ih _ u hu

theorem scan_lexed (source : String) :
    Lexed .normal ((Token.scan source).map Token.lexeme) := by
  rw [Token.scan, map_lexeme_placeLexemes]
  exact (lexed_lexemes .normal source.toList).1

/-- Where the tokens around one of them are placed. -/
theorem scan_split {us vs : List Token} (hscan : Token.scan source = us ++ t :: vs) :
    placeLexemes .start (us.map Token.lexeme) = us ∧
      (Place.start.after (written us)).after t.lead.toList = ⟨t.offset, t.start⟩ ∧
      placeLexemes ((Place.mk t.offset t.start).after t.text.toList) (vs.map Token.lexeme) =
        vs := by
  have hold : placeLexemes .start (us.map Token.lexeme ++ t.lexeme :: vs.map Token.lexeme) =
      us ++ t :: vs := by
    have e : us.map Token.lexeme ++ t.lexeme :: vs.map Token.lexeme =
        (Token.scan source).map Token.lexeme := by
      rw [hscan]
      simp
    rw [e, Token.scan, map_lexeme_placeLexemes, ← hscan, Token.scan]
  rw [placeLexemes_append, spell_map_lexeme] at hold
  have hlength : (placeLexemes .start (us.map Token.lexeme)).length = us.length := by
    simpa using congrArg List.length (map_lexeme_placeLexemes .start (us.map Token.lexeme))
  obtain ⟨hus, htail⟩ := append_inj hold hlength
  obtain ⟨ht, hvs⟩ := cons_eq_cons.1 htail
  have hplace : (Place.start.after (written us)).after t.lead.toList = ⟨t.offset, t.start⟩ := by
    rw [Place.mk.injEq]
    exact ⟨congrArg Token.offset ht, congrArg Token.start ht⟩
  refine ⟨hus, hplace, ?_⟩
  rw [← hplace]
  exact hvs

/-- The places behind the old and the new text of a token. -/
theorem Token.behind_after (solid : SolidText t.text.toList) {text : List Char}
    (hline : '\n' ∉ text) :
    ((Place.mk t.offset t.start).after t.text.toList).Behind t ∧
      ((Place.mk t.offset t.start).after t.text.toList).pushed t text =
        (Place.mk t.offset t.start).after text := by
  have hold : (Place.mk t.offset t.start).after t.text.toList = ⟨t.endOffset, t.stop⟩ := by
    rw [solid.stop_eq]
    rfl
  have hnew : (Place.mk t.offset t.start).after text =
      ⟨t.offset + byteLength text, ⟨t.line, t.start.column + text.length⟩⟩ := by
    rw [Place.after, Position.after_of_not_mem _ hline]
    rfl
  rw [hold, hnew]
  refine ⟨⟨le_refl _, le_refl _, fun _ => le_refl _⟩, ?_⟩
  simp [Place.pushed, Token.stop]

/-- If another text of a token is scanned as one token again, the other tokens only move. -/
theorem scan_reworded {us vs : List Token} (hscan : Token.scan source = us ++ t :: vs)
    (solid : t.kind.isSolid = true) {text : List Char} (hline : '\n' ∉ text)
    (lexed : Lexed .normal
      (us.map Token.lexeme ++ ⟨t.lead.toList, t.kind, text⟩ :: vs.map Token.lexeme)) :
    Token.scan (String.ofList (written us ++ (t.lead.toList ++ (text ++ written vs)))) =
      (Token.scan source).map (t.rewording (String.ofList text)) := by
  obtain ⟨hus, hplace, hvs⟩ := scan_split hscan
  have hsolid : SolidText t.text.toList := by
    apply ((laid_scan source).sane (t := t) _).solid solid
    simp [hscan]
  have hbefore : us.map (t.rewording (String.ofList text)) = us := by
    obtain ⟨last, segment, -⟩ := (lexed_append (cons_ne_nil _ _)).1 lexed
    have hlt := segment.offset_lt .start
    rw [hus, spell_map_lexeme] at hlt
    have hle : (Place.start.after (written us)).offset ≤ t.offset := by
      have := congrArg Place.offset hplace
      simp only [Place.after] at this ⊢
      omega
    calc us.map (t.rewording (String.ofList text)) = us.map id :=
          map_congr_left fun u hu =>
            Token.rewording_of_lt _ (Nat.lt_of_lt_of_le (hlt u hu) hle)
      _ = us := map_id us
  have hafter : vs.map (t.rewording (String.ofList text)) =
      placeLexemes ((Place.mk t.offset t.start).after text) (vs.map Token.lexeme) := by
    obtain ⟨hbehind, hpushed⟩ := Token.behind_after hsolid hline
    have hend : t.offset < t.endOffset := by
      obtain ⟨c, cs, e⟩ := exists_cons_of_ne_nil hsolid.ne_nil
      have := c.utf8Size_pos
      rw [Token.endOffset, e, byteLength]
      omega
    have := placeLexemes_pushed (String.ofList text) hend hbehind (vs.map Token.lexeme)
    rw [hvs, String.toList_ofList, hpushed] at this
    exact this.symm
  have hlexemes : lexemes .normal (written us ++ (t.lead.toList ++ (text ++ written vs))) =
      us.map Token.lexeme ++ ⟨t.lead.toList, t.kind, text⟩ :: vs.map Token.lexeme := by
    have := lexemes_of_lexed lexed
    simpa [spell_append, spell_map_lexeme] using this
  have hself : (Lexeme.mk t.lead.toList t.kind text).toToken (Place.start.after (written us)) =
      { t with text := String.ofList text } := by
    rw [Lexeme.toToken, hplace, String.ofList_toList]
  rw [Token.scan, String.toList_ofList, hlexemes, placeLexemes_append, spell_map_lexeme, hus,
    placeLexemes, hself, hplace, hscan, map_append, map_cons, hbefore, hafter, Token.rewording_self]

/-! ## What is read -/

/-- The blocks of the changed text are the old ones with one token changed. -/
theorem blocksOf_reworded {output : String} {text : String}
    (h : Token.scan output = (Token.scan source).map (t.rewording text)) :
    blocksOf (Token.scan output) =
      (blocksOf (Token.scan source)).map (Block.map (t.rewording text)) := by
  rw [h, blocksOf_map (Token.rewording_kind t text)]

theorem Token.map_rewording {ts : List Token} (h : t ∉ ts) (text : String) :
    ts.map (t.rewording text) = ts.map (t.push text.toList) :=
  map_congr_left fun _ hu => Token.rewording_of_ne text fun e => h (e ▸ hu)

/-- Values without the token stay the same. -/
theorem joinTokens_rewording {ts : List Token} (h : t ∉ ts) (text : String) :
    joinTokens (ts.map (t.rewording text)) = joinTokens ts := by
  rw [Token.map_rewording h]
  exact joinTokens_map (n := 0) (Token.push_line t text) (Token.push_lead t text)
    (Token.push_text t text) ts

/-! ## The correction -/

/-- Applying one correction replaces the characters on its span. -/
theorem applyAll_single {pre old post : List Char} {c : Correction}
    (hsource : source.toList = pre ++ (old ++ post)) (hstart : Addressable pre (old ++ post))
    (hstop : Addressable (pre ++ old) post)
    (hspan : c.span = ⟨Position.after ⟨1, 0⟩ pre, Position.after ⟨1, 0⟩ (pre ++ old)⟩) :
    Correction.applyAll source [c] =
      .ok ⟨String.ofList (pre ++ (c.replacement.toList ++ post)), 1, []⟩ := by
  have hfirst := index?_after hstart
  have hlast := index?_after hstop
  rw [← hsource] at hfirst
  rw [append_assoc, ← hsource] at hlast
  have hlocate : Edit.locate source.toList c = .ok ⟨pre.length, (pre ++ old).length, c⟩ := by
    apply Edit.locate_eq_ok
    · rw [isOrdered_iff, hspan, Position.after_append]
      exact Position.le_after _ _
    · rw [hspan]
      exact hfirst
    · rw [hspan]
      exact hlast
  have hmap : [c].mapM (Edit.locate source.toList) =
      .ok [⟨pre.length, (pre ++ old).length, c⟩] := by
    rw [mapM_cons, hlocate]
    rfl
  have hsplice : Edit.splice source.toList ⟨pre.length, (pre ++ old).length, c⟩ =
      pre ++ (c.replacement.toList ++ post) := by
    rw [Edit.splice, hsource]
    rw [take_left, ← append_assoc pre old, drop_left, append_assoc]
  rw [Correction.applyAll, hmap, ← hsplice]
  simp [Plan.add, Plan.run]

end ModCheck
