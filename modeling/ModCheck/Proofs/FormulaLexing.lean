import Mathlib.Data.List.Chain
import ModCheck.Proofs.CallTexts
import ModCheck.Proofs.HeldRanges

/-
  The text of a formula token by token. A text consists of the texts of its tokens, each of them
  one token on its own, with blanks around them (`Lexed`). The scanner finds such tokens again
  (`Lexed.scans`), unless two of them are words that nothing separates: a sign ends the
  number or the name before it, and is never continued itself. So a token can be written in the
  place of others, and all the rest of the text is scanned as before (`Lexed.replace`).
-/

namespace ModCheck

open List

/-- A range with new numbers for the characters at its ends. -/
def CharRange.mapPos (m : Nat → Nat) (r : CharRange) : CharRange :=
  ⟨m r.start, m r.stop⟩

theorem CharRange.replace_of_length {r : CharRange} {before middle : List Char}
    (start : r.start = before.length) (stop : r.stop = (before ++ middle).length)
    (text after : List Char) :
    r.replace text (before ++ middle ++ after) = before ++ (text ++ after) := by
  rw [CharRange.replace, stop, drop_left, start, append_assoc, take_left]

namespace Formula

open Text (isBlank)

variable {c : Char} {cs : List Char} {kind : TokenKind} {old ts us vs : List Token} {pos : Nat}
  {r : CharRange}

def Token.mapPos (m : Nat → Nat) (t : Token) : Token :=
  { t with span := t.span.mapPos m }

/-! ## Texts of one token -/

/-- Numbers and names. Only they can go on in what follows them. -/
def TokenKind.isWord : TokenKind → Bool
  | .number _ => true
  | .ident => true
  | _ => false

/-- Signs are no words, nor part of one. -/
theorem not_word_of_sign (h : signKind? c = some kind) :
    kind.isWord = false ∧ isNameChar c = false := by
  unfold signKind? at h
  split at h <;> cases h <;> exact ⟨rfl, by decide⟩

/-- A sign is a token whatever follows it. -/
theorem TokenText.sign_of_not_isWord (h : TokenText kind (c :: cs)) (hk : kind.isWord = false) :
    signKind? c = some kind := by
  cases h with
  | sign sign => exact sign
  | number value => simp [TokenKind.isWord] at hk
  | name start all => simp [TokenKind.isWord] at hk

/-- Characters with which no word goes on. -/
def Halts (cs : List Char) : Prop :=
  ∀ c ∈ cs.head?, isNameChar c = false

/-- A token ends where no word goes on. -/
theorem TokenText.longest {text rest : List Char} (h : TokenText kind text)
    (halts : kind.isWord = true → Halts rest) : LongestToken kind text (text ++ rest) := by
  have alone : LongestToken kind text text :=
    ⟨h, prefix_refl _, fun kind' text' _ leads => leads⟩
  by_cases hk : kind.isWord = true
  · cases rest with
    | nil => rwa [append_nil]
    | cons d ds => exact alone.append (halts hk d rfl) (.inl rfl) ds
  · obtain ⟨c, cs, rfl⟩ := exists_cons_of_ne_nil h.ne_nil
    have found : leadingToken 0 c (cs ++ rest) = .ok (kind, [c]) := by
      rw [leadingToken, h.sign_of_not_isWord (by simpa using hk)]
    obtain rfl : cs = [] := by
      have := alone.leadingToken_eq 0
      rw [leadingToken, h.sign_of_not_isWord (by simpa using hk)] at this
      simpa using this.symm
    exact longestToken_of_leadingToken found

/-! ## Texts of many tokens -/

/-- Tokens with their texts and blanks around them; `pos` is the number of the first character. -/
inductive Lexed : Nat → List Char → List Token → Prop
  | blanks {pos : Nat} {gap : List Char} (blank : ∀ c ∈ gap, isBlank c = true) : Lexed pos gap []
  | token {pos : Nat} {gap text rest : List Char} {kind : TokenKind} {ts : List Token}
      (blank : ∀ c ∈ gap, isBlank c = true) (lexeme : TokenText kind text)
      (more : Lexed (pos + gap.length + text.length) rest ts) :
      Lexed pos (gap ++ (text ++ rest))
        (⟨kind, String.ofList text, ⟨pos + gap.length, pos + gap.length + text.length⟩⟩ :: ts)

theorem Lexed.blanks_append {gap : List Char} (blank : ∀ c ∈ gap, isBlank c = true)
    (h : Lexed (pos + gap.length) cs ts) : Lexed pos (gap ++ cs) ts := by
  cases h with
  | blanks more => exact .blanks (forall_mem_append.2 ⟨blank, more⟩)
  | @token _ gap' text rest kind ts more lexeme behind =>
    have e : pos + gap.length + gap'.length = pos + (gap ++ gap').length := by
      rw [length_append, Nat.add_assoc]
    rw [e] at behind ⊢
    rw [← append_assoc]
    exact .token (forall_mem_append.2 ⟨blank, more⟩) lexeme behind

theorem Lexed.append {ds : List Char} (h : Lexed pos cs ts) (h' : Lexed (pos + cs.length) ds us) :
    Lexed pos (cs ++ ds) (ts ++ us) := by
  induction h with
  | blanks blank => exact h'.blanks_append blank
  | @token pos gap text rest kind ts blank lexeme more ih =>
    have e : pos + (gap ++ (text ++ rest)).length =
        pos + gap.length + text.length + rest.length := by
      simp only [length_append]
      omega
    rw [e] at h'
    rw [append_assoc, append_assoc]
    exact .token blank lexeme (ih h')

/-- The text up to the last of some tokens, and the text behind it. -/
theorem Lexed.of_append (h : Lexed pos cs (ts ++ us)) :
    ∃ before after, cs = before ++ after ∧ Lexed pos before ts ∧
      Lexed (pos + before.length) after us ∧
      (ts.getLast?.map (·.span.stop)).getD pos = pos + before.length := by
  induction ts generalizing pos cs with
  | nil => exact ⟨[], cs, rfl, .blanks (by simp), h, rfl⟩
  | cons t ts ih =>
    cases h with
    | @token _ gap text rest kind _ blank lexeme more =>
      obtain ⟨before, after, rfl, first, second, stop⟩ := ih more
      have e : pos + (gap ++ (text ++ before)).length =
          pos + gap.length + text.length + before.length := by
        simp only [length_append]
        omega
      refine ⟨gap ++ (text ++ before), after, by simp, .token blank lexeme first, ?_, ?_⟩
      · rwa [e]
      · rw [e, ← stop, getLast?_cons]
        cases ts.getLast? <;> rfl

/-- The same text from another character on. -/
theorem Lexed.mapPos {pos' : Nat} (h : Lexed pos cs ts) {m : Nat → Nat}
    (hm : ∀ k ≤ cs.length, m (pos + k) = pos' + k) : Lexed pos' cs (ts.map (·.mapPos m)) := by
  induction h generalizing pos' with
  | blanks blank => exact .blanks blank
  | @token pos gap text rest kind ts blank lexeme more ih =>
    have start := hm gap.length (by simp)
    have stop := hm (gap.length + text.length) (by simp)
    rw [← Nat.add_assoc, ← Nat.add_assoc] at stop
    have behind : ∀ k ≤ rest.length,
        m (pos + gap.length + text.length + k) = pos' + gap.length + text.length + k := by
      intro k hk
      have := hm (gap.length + text.length + k) (by simp only [length_append]; omega)
      simpa only [Nat.add_assoc] using this
    have first : Token.mapPos m
        ⟨kind, String.ofList text, ⟨pos + gap.length, pos + gap.length + text.length⟩⟩ =
        ⟨kind, String.ofList text, ⟨pos' + gap.length, pos' + gap.length + text.length⟩⟩ := by
      simp only [Token.mapPos, CharRange.mapPos, start, stop]
    rw [map_cons, first]
    exact .token blank lexeme (ih behind)

/-! ## Scanning -/

theorem Scans.lexed (h : Scans pos cs ts) : Lexed pos cs ts := by
  have none : ∀ c ∈ ([] : List Char), isBlank c = true := by simp
  induction h with
  | done => exact .blanks none
  | @blank pos c cs ts hb more ih =>
    have blank : ∀ d ∈ [c], isBlank d = true := by simpa using hb
    exact ih.blanks_append blank
  | token longest more ih => exact .token none longest.token ih

theorem Scans.blanks_append {gap : List Char} (blank : ∀ c ∈ gap, isBlank c = true)
    (h : Scans (pos + gap.length) cs ts) : Scans pos (gap ++ cs) ts := by
  induction gap generalizing pos with
  | nil => exact h
  | cons c gap ih =>
    obtain ⟨hc, blank⟩ := forall_mem_cons.1 blank
    refine .blank hc (ih blank ?_)
    rwa [length_cons, Nat.add_comm gap.length, ← Nat.add_assoc] at h

/-- No two words stand next to each other. -/
def Parted (ts : List Token) : Prop :=
  ts.IsChain fun t u => t.kind.isWord = false ∨ u.kind.isWord = false

/-- Behind a word stands a blank, a sign or nothing. -/
theorem Lexed.halts (h : Lexed pos cs ts) (sign : ∀ t ∈ ts.head?, t.kind.isWord = false) :
    Halts cs := by
  intro c hc
  cases h with
  | blanks blank => exact isNameChar_of_isBlank (blank c (mem_of_head? hc))
  | @token _ gap text rest kind _ blank lexeme more =>
    cases gap with
    | nil =>
      obtain ⟨d, ds, rfl⟩ := exists_cons_of_ne_nil lexeme.ne_nil
      obtain rfl : d = c := Option.some.inj hc
      exact (not_word_of_sign (lexeme.sign_of_not_isWord (sign _ rfl))).2
    | cons g gap =>
      obtain rfl : g = c := Option.some.inj hc
      exact isNameChar_of_isBlank (blank g mem_cons_self)

/-- The tokens of a text are found in it. -/
theorem Lexed.scans (h : Lexed pos cs ts) (parted : Parted ts) : Scans pos cs ts := by
  induction h with
  | @blanks pos gap blank => simpa using Scans.blanks_append blank .done
  | @token pos gap text rest kind ts blank lexeme more ih =>
    refine .blanks_append blank (.token (lexeme.longest fun word => ?_) (ih parted.tail))
    refine more.halts fun t ht => ?_
    obtain ⟨ts, rfl⟩ := head?_eq_some_iff.1 ht
    simpa [word] using (isChain_cons_cons.1 parted).1

/-! ## A token in the place of others -/

/-- Where characters stand once those of a range are replaced by `n` others: the ones before the
range stay, and the ones behind it follow the new ones. -/
def resize (r : CharRange) (n : Nat) (k : Nat) : Nat :=
  if k ≤ r.start then k else k - r.stop + (r.start + n)

theorem resize_before {n k : Nat} (h : k ≤ r.start) : resize r n k = k :=
  if_pos h

theorem resize_behind (h : r.start < r.stop) (n k : Nat) :
    resize r n (r.stop + k) = r.start + n + k := by
  unfold resize
  rw [if_neg (by omega)]
  omega

/-- The characters of some tokens, without the blanks before and behind them. -/
theorem Lexed.exists_covered (h : Lexed 0 cs (us ++ (old ++ vs))) (covers : Covers r old) :
    ∃ before middle after, cs = before ++ middle ++ after ∧ middle ≠ [] ∧
      r = ⟨before.length, (before ++ middle).length⟩ ∧ Lexed 0 before us ∧
      Lexed (before ++ middle).length after vs := by
  obtain ⟨before, rest, rfl, first, behind, -⟩ := h.of_append
  obtain ⟨middle, after, rfl, tokens, last, stop⟩ := behind.of_append
  obtain ⟨t, u, ht, hu, rfl⟩ := covers
  obtain ⟨old, rfl⟩ := head?_eq_some_iff.1 ht
  rw [hu] at stop
  cases tokens with
  | @token _ gap text more kind _ blank lexeme others =>
    have beforeGap : Lexed 0 (before ++ gap) us := by
      simpa using first.append (.blanks blank)
    have hstop : u.span.stop = (before ++ gap ++ (text ++ more)).length := by
      simpa using stop
    refine ⟨before ++ gap, text ++ more, after, by simp, by simp [lexeme.ne_nil], ?_, beforeGap, ?_⟩
    · simp [CharRange.through, hstop]
    · rw [append_assoc]
      simpa using last

/-- A token is written on the characters of others. -/
theorem Lexed.replace (h : Lexed 0 cs (us ++ (old ++ vs))) (covers : Covers r old)
    {text : List Char} (lexeme : TokenText kind text) :
    Lexed 0 (r.replace text cs)
      ((us ++ ⟨kind, String.ofList text, r⟩ :: vs).map (·.mapPos (resize r text.length))) := by
  obtain ⟨before, middle, after, rfl, hne, hr, first, last⟩ := h.exists_covered covers
  have start : r.start = before.length := by rw [hr]
  have stop : r.stop = (before ++ middle).length := by rw [hr]
  have hlt : r.start < r.stop := by
    have := length_pos_iff.2 hne
    rw [stop, length_append]
    omega
  have kept : Lexed 0 before (us.map (·.mapPos (resize r text.length))) := by
    refine first.mapPos fun k hk => ?_
    rw [Nat.zero_add]
    exact resize_before (start ▸ hk)
  have behind : Lexed (r.start + text.length) after
      (vs.map (·.mapPos (resize r text.length))) := by
    refine last.mapPos fun k _ => ?_
    rw [← stop]
    exact resize_behind hlt text.length k
  have new : Token.mapPos (resize r text.length) ⟨kind, String.ofList text, r⟩ =
      ⟨kind, String.ofList text, ⟨r.start, r.start + text.length⟩⟩ := by
    have hstart : resize r text.length r.start = r.start := resize_before (Nat.le_refl _)
    have hstop : resize r text.length r.stop = r.start + text.length :=
      resize_behind hlt text.length 0
    simp only [Token.mapPos, CharRange.mapPos, hstart, hstop]
  have none : ∀ c ∈ ([] : List Char), isBlank c = true := by simp
  have token : Lexed r.start (text ++ after)
      (⟨kind, String.ofList text, ⟨r.start, r.start + text.length⟩⟩ ::
        vs.map (·.mapPos (resize r text.length))) :=
    .token none lexeme behind
  rw [CharRange.replace_of_length start stop, map_append, map_cons, new]
  refine kept.append ?_
  rw [Nat.zero_add, ← start]
  exact token

/-- The new text is scanned as the old one, with the token in its place. -/
theorem scan_replace {source : String} (scanned : scan source = .ok (us ++ (old ++ vs)))
    (covers : Covers r old) {t : Token} (span : t.span = r)
    (lexeme : TokenText t.kind t.text.toList)
    (parted : Parted ((us ++ t :: vs).map (·.mapPos (resize r t.text.toList.length)))) :
    scan (String.ofList (r.replace t.text.toList source.toList)) =
      .ok ((us ++ t :: vs).map (·.mapPos (resize r t.text.toList.length))) := by
  subst span
  have lexed := (scans_iff.1 scanned).lexed.replace covers lexeme
  rw [String.ofList_toList] at lexed
  unfold scan
  rw [String.toList_ofList]
  exact scans_iff.2 (lexed.scans parted)

theorem IsIdent.tokenText {name : String} (h : IsIdent name) : TokenText .ident name.toList := by
  obtain ⟨t, kind, rfl, scanned⟩ := h
  rw [← kind]
  exact ((scans_iff.1 scanned).longest rfl t (mem_singleton_self t)).1.token

end Formula

end ModCheck
