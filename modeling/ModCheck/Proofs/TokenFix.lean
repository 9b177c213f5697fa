import ModCheck.Proofs.HeldRanges
import ModCheck.Proofs.Revaluing

/-
  One correction inside one token of a value, on any of its lines. A name that stays a name and a
  word that keeps its first character are scanned as one token again, whatever stands around them
  (`lexed_taking`). Counting along the text of the value leads to each of its tokens
  (`Placed.token_stop`), so what is corrected in the token is corrected in the value, and all else
  is read as before (`revalued_in_token`).
-/

namespace ModCheck

open List
open Text (isBlank)

variable {text : List Char} {fix : Correction} {i : Nat} {place r : CharRange}
  {source : String} {t : Token} {us vs : List Token}

/-! ## Another text for a token -/

/-- Whether a token can have another text and stay one token, whatever stands around it: a name
keeps its mark, and any other word its first character. -/
def Token.Takes (t : Token) (text : List Char) : Prop :=
  (t.kind = .identifier ∧ IsName text ∧ (t.text.toList.head? = some '!' → text.head? = some '!')) ∨
    (t.kind = .value ∧ IsWord t.text.toList ∧ IsWord text ∧ text.head? = t.text.toList.head? ∧
      text.head? ≠ some '-' ∧ (text.getLast? = some '-' → t.text.toList.getLast? = some '-'))

instance (t : Token) (text : List Char) : Decidable (t.Takes text) := instDecidableOr

theorem Token.Takes.solid (h : t.Takes text) : t.kind.isSolid = true := by
  rcases h with ⟨hk, -⟩ | ⟨hk, -⟩ <;> rw [hk] <;> rfl

/-- A word without blanks can be a value. -/
theorem IsWord.plainValue (h : IsWord text)
    (hfirst : ∀ c, text.head? = some c → isBlank c = false) : PlainValue text := by
  cases text with
  | nil => exact h.elim
  | cons c cs =>
    obtain ⟨hsigns, -, -, hword⟩ := h
    have solid : ∀ d ∈ cs, isDelimiter d = false := fun d hd =>
      splitWord_not_isDelimiter (by rwa [hword])
    have hblank : ∀ d ∈ c :: cs, isBlank d = false := by
      intro d hd
      rcases mem_cons.1 hd with rfl | hd
      · exact hfirst d rfl
      · have := solid d hd
        simp only [isDelimiter, Bool.or_eq_false_iff] at this
        exact this.1.1.1.1
    refine ⟨fun d hd => ?_, hfirst, fun d hd => hblank d (mem_of_getLast? hd), ?_⟩
    · rcases mem_cons.1 hd with rfl | hd
      · simp only [mem_cons, not_mem_nil, or_false, not_or] at hsigns ⊢
        exact ⟨hsigns.1, hsigns.2.2.1, hsigns.2.2.2.1⟩
      · have := solid d hd
        intro hmem
        simp only [mem_cons, not_mem_nil, or_false] at hmem
        rcases hmem with rfl | rfl | rfl <;> exact absurd this (by decide)
    · have := holdsProperty_append_of_not_isBlank hblank []
      rw [append_nil] at this
      rw [this]
      rfl

/-- Words with the same first character look alike. -/
theorem alike_words {c : Char} (hplain : isPlainStart c = true)
    (hstart : Token.isWordStart c = false) (hc : c ≠ '=') (cs cs' : List Char) :
    Alike (c :: cs) (c :: cs') := by
  have hassigns (ds : List Char) : assigns (c :: ds) = false := by
    have hblank := (isPlainStart_iff.1 hplain).1
    rw [assigns, dropWhile_cons_of_neg (by simp [isLineBlank, hblank])]
    simpa using hc
  have hproperty (ds : List Char) : startsProperty (c :: ds) = false := by
    simp [startsProperty, hstart]
  exact ⟨⟨c, rfl, hplain⟩, ⟨c, rfl, hplain⟩, rfl, by rw [hassigns, hassigns],
    by rw [hproperty, hproperty]⟩

theorem lexed_taking (h : Lexed .normal ((us ++ t :: vs).map Token.lexeme))
    (takes : t.Takes text) : Lexed .normal
      (us.map Token.lexeme ++ ⟨t.lead.toList, t.kind, text⟩ :: vs.map Token.lexeme) := by
  rcases takes with ⟨hk, hn, hmark⟩ | ⟨hk, hold, hnew, hhead, hdash, hlast⟩
  · exact lexed_renamed h hn ⟨hk, Or.inl hmark⟩
  rw [map_append, map_cons] at h
  have hend : t.lexeme.kind ≠ .endOfFile := by simp [Token.lexeme, hk]
  obtain ⟨mode, -, lexed⟩ := (lexed_append (cons_ne_nil _ _)).1 h
  obtain ⟨formed, -, -⟩ := lexed.of_cons (Or.inl hend)
  have solid : SolidText t.text.toList :=
    formed.solidText (by simp [Token.lexeme, hk, TokenKind.isSolid])
  have plain : PlainValue text := hnew.plainValue (hhead ▸ solid.first)
  obtain ⟨c, cs, hcs⟩ := exists_cons_of_ne_nil solid.ne_nil
  rw [hcs] at hold hhead
  obtain ⟨ds, rfl⟩ := head?_eq_some_iff.1 hhead
  obtain ⟨hsigns, hstart, -, -⟩ := hold
  simp only [mem_cons, not_mem_nil, or_false, not_or] at hsigns
  have hblank : isBlank c = false := plain.first c rfl
  have hplain : isPlainStart c = true := isPlainStart_iff.2
    ⟨hblank, hsigns.2.2.1, hsigns.2.2.2.1, by simpa using hdash⟩
  have hdelimiter : isDelimiter c = false := by simp [isDelimiter, hblank, hsigns]
  have htext : t.lexeme.text = c :: cs := hcs
  have spelled : spell (t.lexeme :: vs.map Token.lexeme) =
      t.lead.toList ++ c :: (cs ++ spell (vs.map Token.lexeme)) := by
    rw [spell_cons, htext]
    rfl
  refine lexed_swap h (cons_ne_nil _ _) spelled (spell_cons _ _)
    (alike_words hplain hstart hsigns.2.2.2.2.2 _ _) ?_ ?_
  · -- what stands before the word stops there, so the word does not go on with it
    intro d hd hpart
    obtain ⟨init, z, mode, -, hz, formed, ends⟩ := lexeme_before h hend hd hpart
    rw [htext] at ends
    have := ends.not_isWordChar formed.2 hplain hdelimiter hz hpart
    exact ⟨by simpa using this, by simpa using this⟩
  · intro last lexed
    obtain ⟨formed, ends, rest⟩ := lexed.of_cons (Or.inl hend)
    refine .cons ⟨?_, ?_⟩ ?_ rest
    · have hgap := formed.1
      rw [htext] at hgap
      exact splitGap_swap hblank hblank hgap
    · simp only [Lexeme.HasForm, hk]
      cases last with
      | normal => exact hnew
      | inValue => exact ⟨plain.isValue, fun _ => by simp [startsProperty, hstart]⟩
    · simp only [Lexeme.Ends, Token.lexeme, hk] at ends ⊢
      cases last with
      | normal => exact ⟨ends.1, fun hl => ends.2 (hlast hl)⟩
      | inValue => exact ends

/-! ## Tokens in the text of a value -/

theorem Position.after_take_inj {p : Position} {cs : List Char} {i j : Nat} (hi : i ≤ cs.length)
    (hj : j ≤ cs.length) (h : p.after (cs.take i) = p.after (cs.take j)) : i = j := by
  rcases Nat.lt_trichotomy i j with hlt | rfl | hlt
  · exact absurd h (ne_of_lt (Position.after_take_lt p cs hlt (hlt.trans_le hj)))
  · rfl
  · exact absurd h.symm (ne_of_lt (Position.after_take_lt p cs hlt (hlt.trans_le hi)))

/-- The text of a value up to one of its tokens does not depend on what that token says. -/
theorem exists_lead (front : List Token) (t : Token) :
    ∃ lead, ∀ (text : String) (rest : List Token), joinTokens (front ++ { t with text } :: rest) =
      lead ++ (text.toList ++ joinTokensFrom t.line rest) := by
  have from_line (line : Nat) (ts : List Token) : ∃ lead, ∀ (text : String) (rest : List Token),
      joinTokensFrom line (ts ++ { t with text } :: rest) =
        lead ++ (text.toList ++ joinTokensFrom t.line rest) := by
    induction ts generalizing line with
    | nil =>
      refine ⟨replicate (t.line - line) '\n' ++ t.lead.toList, fun text rest => ?_⟩
      simp only [nil_append, joinTokensFrom, append_assoc]
      rfl
    | cons u ts ih =>
      obtain ⟨lead, hlead⟩ := ih u.line
      refine ⟨replicate (u.line - line) '\n' ++ u.lead.toList ++ u.text.toList ++ lead,
        fun text rest => ?_⟩
      rw [cons_append, joinTokensFrom, hlead, append_assoc _ lead]
  cases front with
  | nil => exact ⟨[], fun text rest => rfl⟩
  | cons u ts =>
    obtain ⟨lead, hlead⟩ := from_line u.line ts
    exact ⟨u.text.toList ++ lead, fun text rest => by
      rw [cons_append, joinTokens, hlead, append_assoc]⟩

theorem valueSpan_start (equals first : Token) (rest : List Token) :
    (valueSpan equals (first :: rest)).start = first.start := by
  rw [valueSpan, head?_cons, getLast?_eq_some_getLast (cons_ne_nil _ _)]

theorem valueSpan_stop_concat (equals last : Token) (front : List Token) :
    (valueSpan equals (front ++ [last])).stop = last.stop := by
  rw [valueSpan, getLast?_concat]
  cases front <;> rfl

/-- Counting along the text of a value leads to its end. -/
theorem valueSpan_after {pre : List Char} {used : List Token} (laid : Laid pre used)
    (hk : ∀ t ∈ used, t.kind = .newline ∨ t.kind.isSolid = true) (hv : valueTokens used ≠ [])
    (equals : Token) : (valueSpan equals (valueTokens used)).stop =
      (valueSpan equals (valueTokens used)).start.after (joinTokens (valueTokens used)) := by
  obtain ⟨p, q, p', q', -, walk, span⟩ := follows_tokens [] laid hk hv equals
  rw [span]
  exact walk.stop_eq

section

variable {key equals : Token} {value used more : List Token}
  (placed : Placed source key equals value us used more)
include placed

theorem Placed.sane (ht : t ∈ used) : t.Sane :=
  (laid_append.1 placed.laid).1.sane ht

/-- Counting along the text of a value leads to the end of each of its tokens. -/
theorem Placed.token_stop (ht : t ∈ used) (solid : t.kind.isSolid = true) :
    ∃ front rest, value = front ++ t :: rest ∧
      t.stop = (valueSpan equals value).start.after (joinTokens (front ++ [t])) := by
  obtain ⟨before, behind, rfl⟩ := append_of_mem ht
  have laid := (laid_append.1 placed.laid).1
  rw [append_cons before] at laid
  have hvalue : value = valueTokens before ++ t :: valueTokens behind := by
    simp [placed.value, valueTokens, (TokenKind.isSolid_iff.1 solid).1]
  have hlast : valueTokens (before ++ [t]) = valueTokens before ++ [t] := by
    simp [valueTokens, (TokenKind.isSolid_iff.1 solid).1]
  have hstop := valueSpan_after (laid_append.1 laid).1
    (fun u hu => placed.run.solid placed.inner (by simp at hu ⊢; tauto)) (by simp [hlast]) equals
  rw [hlast, valueSpan_stop_concat] at hstop
  have hstart : (valueSpan equals value).start =
      (valueSpan equals (valueTokens before ++ [t])).start := by
    rw [hvalue]
    cases valueTokens before <;> simp only [nil_append, cons_append, valueSpan_start]
  exact ⟨_, _, hvalue, hstart ▸ hstop⟩

/-- What stands before a token of a value, also if the token gets another text. -/
theorem Placed.token_start (ht : t ∈ used) (solid : t.kind.isSolid = true) :
    ∃ front rest lead, value = front ++ t :: rest ∧
      t.start = (valueSpan equals value).start.after lead ∧
      ∀ text : String, joinTokens (front ++ { t with text } :: rest) =
        lead ++ (text.toList ++ joinTokensFrom t.line rest) := by
  obtain ⟨front, rest, hvalue, hstop⟩ := placed.token_stop ht solid
  obtain ⟨lead, hlead⟩ := exists_lead front t
  refine ⟨front, rest, lead, hvalue, ?_, fun text => hlead text rest⟩
  have htoken : joinTokens (front ++ [t]) = lead ++ (t.text.toList ++ []) := hlead t.text []
  have hsolid := (placed.sane ht).solid solid
  rw [htoken, append_nil, hsolid.stop_eq, Position.after_append,
    Position.after_of_not_mem _ hsolid.oneLine, Position.after_of_not_mem _ hsolid.oneLine] at hstop
  obtain ⟨hline, hcolumn⟩ := Position.mk.inj hstop
  exact congrArg₂ Position.mk hline (Nat.add_right_cancel hcolumn)

/-- A token that reaches into a value is one of its tokens. -/
theorem Placed.mem_used (hv : value ≠ []) (ht : t ∈ Token.scan source)
    (solid : t.kind.isSolid = true) (hequals : t.kind ≠ .equals) {p : Position}
    (hfirst : (valueSpan equals value).start ≤ p) (hlast : p < (valueSpan equals value).stop)
    (hstart : t.start ≤ p) (hstop : p ≤ t.stop) : t ∈ used := by
  have order := (laid_scan source).pairwise
  rw [placed.scan] at order ht
  obtain ⟨-, order, front⟩ := pairwise_append.1 order
  obtain ⟨first, order⟩ := pairwise_cons.1 order
  obtain ⟨second, order⟩ := pairwise_cons.1 order
  obtain ⟨-, -, behind⟩ := pairwise_append.1 order
  have hmem : ∀ u ∈ value, u ∈ used ∧ u.kind.isSolid = true := by
    intro u hu
    rw [placed.value] at hu
    obtain ⟨hu, hn⟩ := mem_filter.1 hu
    exact ⟨hu, (placed.run.solid placed.inner hu).resolve_left (by simpa using hn)⟩
  have hkey : equals.start < (valueSpan equals value).start := by
    obtain ⟨u, us', hvalue⟩ := exists_cons_of_ne_nil hv
    have hu := (hmem u (by simp [hvalue])).1
    rw [hvalue, valueSpan_start]
    have hsane := (laid_scan source).sane (t := equals) (by simp [placed.scan])
    have hsolid : equals.kind.isSolid = true := by rw [placed.equals]; rfl
    exact (hsane.start_lt_stop hsolid).trans_le (second u (mem_append_left _ hu) hsolid)
  have before (h : t.stop ≤ equals.start) : False :=
    lt_irrefl _ (((h.trans_lt hkey).trans_le hfirst).trans_le hstop)
  rcases mem_append.1 ht with ht | ht
  · exact (before (front t ht equals (by simp) solid)).elim
  rcases mem_cons.1 ht with rfl | ht
  · exact (before (first equals (by simp) solid)).elim
  rcases mem_cons.1 ht with rfl | ht
  · exact absurd placed.equals hequals
  rcases mem_append.1 ht with ht | ht
  · exact ht
  · obtain ⟨init, u, hvalue⟩ := (eq_nil_or_concat' value).resolve_left hv
    obtain ⟨hu, hsolid⟩ := hmem u (by simp [hvalue])
    rw [hvalue, valueSpan_stop_concat] at hlast
    exact (lt_irrefl _ ((hlast.trans_le (behind u hu t ht hsolid)).trans_le hstart)).elim

end

/-! ## The correction -/

/-- A correction at a range of a text that starts at `p`. -/
structure Correction.On (fix : Correction) (p : Position) (value : List Char) (r : CharRange) :
    Prop where
  inside : r.Inside 0 value.length
  span : fix.span = ⟨p.after (value.take r.start), p.after (value.take r.stop)⟩

/-- A correction inside the text of one token, which stays such a token. -/
structure Correction.StaysIn (fix : Correction) (t : Token) (place : CharRange) : Prop where
  ordered : place.start ≤ place.stop
  inside : place.stop ≤ t.text.toList.length
  span : fix.span = ⟨⟨t.line, t.start.column + place.start⟩, ⟨t.line, t.start.column + place.stop⟩⟩
  takes : t.Takes (place.replace fix.replacement.toList t.text.toList)

namespace Correction.StaysIn

variable (h : fix.StaysIn t place) (solid : SolidText t.text.toList)
include h solid

theorem oneLine : '\n' ∉ place.replace fix.replacement.toList t.text.toList := by
  rcases h.takes with ⟨-, hn, -⟩ | ⟨-, -, hw, hhead, -⟩
  · exact hn.not_mem_break
  · exact fun hmem => (hw.plainValue (hhead ▸ solid.first)).chars _ hmem (by simp)

theorem span_eq : fix.span = ⟨t.start.after (t.text.toList.take place.start),
    t.start.after (t.text.toList.take place.stop)⟩ := by
  have hin (i : Nat) (hi : i ≤ t.text.toList.length) :
      t.start.after (t.text.toList.take i) = ⟨t.line, t.start.column + i⟩ := by
    rw [Position.after_of_not_mem _ fun hmem => solid.oneLine (mem_of_mem_take hmem), length_take,
      Nat.min_eq_left hi]
    rfl
  rw [h.span, hin _ (h.ordered.trans h.inside), hin _ h.inside]

/-- The text of a value around a token is the same before and behind the correction. -/
theorem replace_eq {value lead tail : List Char} {p : Position} (on : fix.On p value r)
    (hvalue : value = lead ++ (t.text.toList ++ tail)) (hstart : t.start = p.after lead) :
    r.replace fix.replacement.toList value =
      lead ++ (place.replace fix.replacement.toList t.text.toList ++ tail) := by
  have hindex (i : Nat) (hi : i ≤ t.text.toList.length) :
      t.start.after (t.text.toList.take i) = p.after (value.take (lead.length + i)) := by
    rw [hvalue, take_length_add_append, take_append_of_le_length hi, Position.after_append, hstart]
  have hlength : lead.length + place.stop ≤ value.length := by
    have := h.inside
    rw [hvalue, length_append, length_append]
    omega
  have hspan := on.span
  rw [h.span_eq solid, hindex _ (h.ordered.trans h.inside), hindex _ h.inside] at hspan
  obtain ⟨hfirst, hlast⟩ := Span.mk.inj hspan
  have hrstart := Position.after_take_inj
    (Nat.le_trans (Nat.add_le_add_left h.ordered _) hlength)
    (on.inside.ordered.trans on.inside.upper) hfirst
  have hrstop := Position.after_take_inj hlength on.inside.upper hlast
  rw [← CharRange.replace_append h.ordered h.inside, CharRange.replace, ← hrstart, ← hrstop, hvalue,
    take_length_add_append, drop_length_add_append, append_assoc, CharRange.replace]

end Correction.StaysIn

/-- A value with a correction made in one of its tokens is read in the place of the old one. -/
theorem revalued_in_token {b : Block} (hb : b ∈ blocksOf (Token.scan source)) {key equals : Token}
    {value : List Token} {ending : ValueClose} {due : Bool}
    (hst : .assignment key equals value ending due ∈ b.statements)
    (on : fix.On (valueSpan equals value).start (joinTokens value) r) (ht : t ∈ Token.scan source)
    (stays : fix.StaysIn t place) (file : String) :
    ∃ output, Correction.applyAll source [fix] = .ok ⟨output, 1, []⟩ ∧
      Revalued source output file ⟨String.ofList (joinTokens value), key.lineSpan,
        valueSpan equals value, ending = .semicolon⟩
        (String.ofList (r.replace fix.replacement.toList (joinTokens value))) := by
  obtain ⟨us, used, more, placed⟩ := exists_placed hb hst
  have kind := stays.takes.solid
  have solid : SolidText t.text.toList := ((laid_scan source).sane ht).solid kind
  have hv : value ≠ [] := by
    rintro rfl
    exact absurd on.inside.before (Nat.not_lt_zero _)
  have hused : t ∈ used := by
    refine placed.mem_used hv ht kind ?_ (p := fix.span.start) ?_ ?_ ?_ ?_
    · rcases stays.takes with ⟨hk, -⟩ | ⟨hk, -⟩ <;> simp [hk]
    · rw [on.span]
      exact Position.le_after _ _
    · have hend := valueSpan_after (laid_append.1 placed.laid).1
        (fun _ => placed.run.solid placed.inner) (placed.value ▸ hv) equals
      have hlt := Position.after_take_lt (valueSpan equals value).start (joinTokens value)
        on.inside.before on.inside.before
      rw [← placed.value] at hend
      rw [take_length, ← hend] at hlt
      rwa [on.span]
    · rw [stays.span_eq solid]
      exact Position.le_after _ _
    · rw [stays.span_eq solid, solid.stop_eq]
      have := Position.after_take_le t.start t.text.toList (stays.ordered.trans stays.inside)
      rwa [take_length] at this
  obtain ⟨front, rest, lead, rfl, hstart, hlead⟩ := placed.token_start hused kind
  have hreplace := stays.replace_eq solid on (hlead t.text) hstart
  obtain ⟨us', vs, hscan⟩ := append_of_mem ht
  have lexed := scan_lexed source
  rw [hscan] at lexed
  obtain ⟨output, made, scanned⟩ := scan_in_token hscan kind stays.ordered (stays.span_eq solid)
    (stays.oneLine solid) (lexed_taking lexed stays.takes)
  have revalued := revalued_reworded hb hst scanned file
  have hnew := hlead (String.ofList (place.replace fix.replacement.toList t.text.toList))
  rw [String.toList_ofList, ← hreplace] at hnew
  rw [hnew] at revalued
  exact ⟨output, made, revalued⟩

end ModCheck
