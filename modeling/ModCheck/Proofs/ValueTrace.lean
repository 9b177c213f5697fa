import ModCheck.Proofs.Layout
import ModCheck.Proofs.Reading

/-
  Value text and places in the file. A value is put together from tokens: the blanks before a
  token are kept, those at the end of a line are dropped, and every line break becomes one line
  feed. `Follows` walks along such a text through the file, one character at a time, a line feed
  skipping whatever is left of the line. Each place on the way has an address, and it is the place
  that counting inside the value gives (`value_place_in_file`).
-/

namespace ModCheck

open List

variable {line : Nat} {pre : List Char} {source : String} {t : Token} {ts : List Token}

/-! ## Walking along a text -/

/-- Walking along `text` leads from the place between `pre` and `post` to the one between `pre'`
and `post'`. -/
inductive Follows : List Char → List Char → List Char → List Char → List Char → Prop
  | done {pre post : List Char} (here : Addressable pre post) : Follows pre post [] pre post
  | char {c : Char} {pre post cs pre' post' : List Char} (hc : c ≠ '\n')
      (here : Addressable pre (c :: post)) (rest : Follows (pre ++ [c]) post cs pre' post') :
      Follows pre (c :: post) (c :: cs) pre' post'
  | line {pre skipped post cs pre' post' : List Char} (hs : '\n' ∉ skipped)
      (here : Addressable pre (skipped ++ '\n' :: post))
      (rest : Follows (pre ++ skipped ++ ['\n']) post cs pre' post') :
      Follows pre (skipped ++ '\n' :: post) ('\n' :: cs) pre' post'

namespace Follows

variable {pre post text pre' post' : List Char}

theorem append {more pre'' post'' : List Char} (h : Follows pre post text pre' post')
    (h' : Follows pre' post' more pre'' post'') : Follows pre post (text ++ more) pre'' post'' := by
  induction h with
  | done => exact h'
  | char hc here _ ih => exact .char hc here (ih h')
  | line hs here _ ih => exact .line hs here (ih h')

theorem next_after_skipped {skipped : List Char} (hs : '\n' ∉ skipped) (p : Position) :
    (p.after skipped).next '\n' = p.next '\n' := by
  rw [Position.after_of_not_mem p hs]
  rfl

/-- Every place on the way has an address, is found by counting along the text, and has the
text's next character unless that is a line feed. -/
theorem place (h : Follows pre post text pre' post') {i : Nat} (hi : i ≤ text.length) :
    ∃ p q, p ++ q = pre ++ post ∧ Addressable p q ∧
      Position.after ⟨1, 0⟩ p = (Position.after ⟨1, 0⟩ pre).after (text.take i) ∧
      ∀ c, text[i]? = some c → c ≠ '\n' → q.head? = some c := by
  induction h generalizing i with
  | @done pre post here => exact ⟨pre, post, rfl, here, by simp, by simp⟩
  | @char c pre post cs pre' post' hc here _ ih =>
    cases i with
    | zero => exact ⟨pre, c :: post, rfl, here, by simp, by simp⟩
    | succ i =>
      obtain ⟨p, q, e, hpq, hp, hq⟩ := ih (Nat.le_of_succ_le_succ hi)
      refine ⟨p, q, by simpa using e, hpq, ?_, by simpa using hq⟩
      rw [hp, Position.after_append]
      rfl
  | @line pre skipped post cs pre' post' hs here _ ih =>
    cases i with
    | zero => exact ⟨pre, skipped ++ '\n' :: post, rfl, here, by simp, by simp⟩
    | succ i =>
      obtain ⟨p, q, e, hpq, hp, hq⟩ := ih (Nat.le_of_succ_le_succ hi)
      refine ⟨p, q, by simpa using e, hpq, ?_, by simpa using hq⟩
      rw [hp, Position.after_append, Position.after_append, Position.after_cons,
        next_after_skipped hs]
      rfl

/-- The way ends where counting along the whole text does. -/
theorem stop_eq (h : Follows pre post text pre' post') :
    Position.after ⟨1, 0⟩ pre' = (Position.after ⟨1, 0⟩ pre).after text := by
  induction h with
  | done => rfl
  | @char c pre post cs pre' post' hc here _ ih =>
    rw [ih, Position.after_append]
    rfl
  | @line pre skipped post cs pre' post' hs here _ ih =>
    rw [ih, Position.after_append, Position.after_append, Position.after_cons,
      next_after_skipped hs]
    rfl

end Follows

/-! ## Walking along tokens -/

theorem addressable_of_last {text : List Char} (hn : '\n' ∉ text) {c : Char}
    (hc : text.getLast? = some c) (hr : c ≠ '\r') (pre post : List Char) :
    Addressable pre (text ++ post) := by
  refine Or.inr ⟨c, ?_, hr⟩
  rw [takeWhile_append_of_not_mem hn]
  exact mem_append_left _ (mem_of_getLast? hc)

/-- A piece of one line that does not end with a carriage return is walked along as it stands. -/
theorem follows_text {text : List Char} (hn : '\n' ∉ text) {c : Char}
    (hc : text.getLast? = some c) (hr : c ≠ '\r') (pre post : List Char) :
    Follows pre (text ++ post) text (pre ++ text) post := by
  induction text generalizing pre with
  | nil => simp at hc
  | cons d ds ih =>
    have hd : d ≠ '\n' := fun e => hn (by simp [e])
    refine .char hd (addressable_of_last hn hc hr pre post) ?_
    cases ds with
    | nil =>
      obtain rfl := Option.some.inj hc
      refine .done (Or.inl ?_)
      simpa using hr
    | cons e es =>
      have := ih (fun h => hn (mem_cons_of_mem _ h))
        (by rwa [getLast?_cons_of_ne_nil (cons_ne_nil _ _)] at hc) (pre ++ [d])
      simpa using this

theorem Laid.line_le (h : Laid pre ts) (ht : t ∈ ts) :
    (Position.after ⟨1, 0⟩ pre).line ≤ t.line := by
  obtain ⟨us, vs, rfl⟩ := append_of_mem ht
  obtain ⟨-, -, start, -⟩ := laid_append.1 h
  rw [Token.line, start, append_assoc, Position.after_append]
  rcases Position.le_iff.1 (Position.le_after (Position.after ⟨1, 0⟩ pre) _) with h | h
  · exact Nat.le_of_lt h
  · exact Nat.le_of_eq h.1

theorem joinTokensFrom_succ (h : line + 1 ≤ t.line) :
    joinTokensFrom line (t :: ts) = '\n' :: joinTokensFrom (line + 1) (t :: ts) := by
  have e : t.line - line = t.line - (line + 1) + 1 := by omega
  rw [joinTokensFrom, joinTokensFrom, e, replicate_succ]
  simp

/-- A line break is one line feed of the text, if any more of the value follows. -/
theorem joinTokensFrom_break (hn : t.kind = .newline) (hlines : ∀ u ∈ ts, line + 1 ≤ u.line)
    (hv : valueTokens ts ≠ []) :
    joinTokensFrom line (valueTokens (t :: ts)) =
      '\n' :: joinTokensFrom (line + 1) (valueTokens ts) := by
  have ev : valueTokens (t :: ts) = valueTokens ts := by simp [valueTokens, hn]
  obtain ⟨v, vs, e⟩ := exists_cons_of_ne_nil hv
  have hmem : v ∈ valueTokens ts := e ▸ mem_cons_self
  rw [ev, e, joinTokensFrom_succ (hlines v (mem_filter.1 hmem).1)]

/-- Any other token is its blanks and its text. -/
theorem joinTokensFrom_text (hline : t.line = line) (hs : t.kind.isSolid = true) (ts : List Token) :
    joinTokensFrom line (valueTokens (t :: ts)) =
      t.lead.toList ++ (t.text.toList ++ joinTokensFrom line (valueTokens ts)) := by
  have ev : valueTokens (t :: ts) = t :: valueTokens ts := by
    simp [valueTokens, (TokenKind.isSolid_iff.1 hs).1]
  rw [ev, joinTokensFrom, hline]
  simp

theorem Runs.solid {used rest : List Token} (run : Runs used rest) (inner : Inner used)
    (ht : t ∈ used) : t.kind = .newline ∨ t.kind.isSolid = true := by
  induction used with
  | nil => simp at ht
  | cons u us ih =>
    rcases mem_cons.1 ht with rfl | ht
    · have hc := run.2.1
      have he := (inner t mem_cons_self).2
      by_cases hn : t.kind = .newline
      · exact Or.inl hn
      · exact Or.inr (TokenKind.isSolid_iff.2 ⟨hn, hc, he⟩)
    · exact ih run.2.2.2 (fun v hv => inner v (mem_cons_of_mem _ hv)) ht

/-- A line break is blanks on its line and one line feed. -/
theorem Token.Sane.break_eq (sane : t.Sane) (hn : t.kind = .newline) :
    ∃ skipped, '\n' ∉ skipped ∧ t.lead.toList ++ t.text.toList = skipped ++ ['\n'] := by
  rcases sane.newline hn with h | h
  · exact ⟨t.lead.toList, sane.lead, by rw [h]⟩
  · refine ⟨t.lead.toList ++ ['\r'], ?_, by simp [h]⟩
    simpa using sane.lead

section

variable {pre : List Char} {t : Token} {ts : List Token} (sane : t.Sane)
include sane

theorem line_after_newline (hn : t.kind = .newline) :
    (Position.after ⟨1, 0⟩ (pre ++ t.lead.toList ++ t.text.toList)).line =
      (Position.after ⟨1, 0⟩ pre).line + 1 := by
  obtain ⟨skipped, hskip, e⟩ := sane.break_eq hn
  rw [append_assoc, e, Position.after_append,
    Position.after_append, Position.after_of_not_mem _ hskip]
  rfl

theorem joinTokensFrom_newline (hn : t.kind = .newline)
    (laid : Laid (pre ++ t.lead.toList ++ t.text.toList) ts) (hv : valueTokens ts ≠ []) :
    joinTokensFrom (Position.after ⟨1, 0⟩ pre).line (valueTokens (t :: ts)) =
      '\n' :: joinTokensFrom
        (Position.after ⟨1, 0⟩ (pre ++ t.lead.toList ++ t.text.toList)).line (valueTokens ts) := by
  have hline : (Position.after ⟨1, 0⟩ (pre ++ t.lead.toList ++ t.text.toList)).line =
      (Position.after ⟨1, 0⟩ pre).line + 1 := line_after_newline sane hn
  rw [hline]
  exact joinTokensFrom_break hn (fun u hu => hline ▸ laid.line_le hu) hv

theorem line_after_solid (start : t.start = Position.after ⟨1, 0⟩ (pre ++ t.lead.toList))
    (hs : t.kind.isSolid = true) :
    t.line = (Position.after ⟨1, 0⟩ pre).line ∧
      (Position.after ⟨1, 0⟩ (pre ++ t.lead.toList ++ t.text.toList)).line = t.line := by
  constructor
  · rw [Token.line, start, Position.after_append, Position.after_of_not_mem _ sane.lead]
  · rw [Position.after_append, ← start, Position.after_of_not_mem _ (sane.solid hs).oneLine]
    rfl

theorem joinTokensFrom_solid (start : t.start = Position.after ⟨1, 0⟩ (pre ++ t.lead.toList))
    (hs : t.kind.isSolid = true) :
    joinTokensFrom (Position.after ⟨1, 0⟩ pre).line (valueTokens (t :: ts)) =
      t.lead.toList ++ (t.text.toList ++ joinTokensFrom
        (Position.after ⟨1, 0⟩ (pre ++ t.lead.toList ++ t.text.toList)).line (valueTokens ts)) := by
  obtain ⟨hline, eline⟩ := line_after_solid sane start hs
  rw [eline, hline]
  exact joinTokensFrom_text hline hs ts

end

/-- Walking along the text of the tokens `used`, line breaks among them, leads from the end of
`pre` to the end of the last token that is none. -/
def Walks (pre : List Char) (used : List Token) (post : List Char) : Prop :=
  ∃ pre' post', Follows pre (written used ++ post)
      (joinTokensFrom (Position.after ⟨1, 0⟩ pre).line (valueTokens used)) pre' post' ∧
    (valueTokens used = [] → pre' = pre) ∧
    ∀ t, (valueTokens used).getLast? = some t → Position.after ⟨1, 0⟩ pre' = t.stop

theorem Walks.newline {post : List Char} (sane : t.Sane) (hn : t.kind = .newline)
    (laid : Laid (pre ++ t.lead.toList ++ t.text.toList) ts)
    (here : Addressable pre (written (t :: ts) ++ post))
    (rest : Addressable (pre ++ t.lead.toList ++ t.text.toList) (written ts ++ post) →
      Walks (pre ++ t.lead.toList ++ t.text.toList) ts post) :
    Walks pre (t :: ts) post := by
  obtain ⟨skipped, hskip, e⟩ := sane.break_eq hn
  have ev : valueTokens (t :: ts) = valueTokens ts := by simp [valueTokens, hn]
  have ew : written (t :: ts) ++ post = skipped ++ '\n' :: (written ts ++ post) := by
    rw [written_cons, ← append_assoc, e]
    simp
  unfold Walks
  rw [ew] at here ⊢
  by_cases hv : valueTokens ts = []
  · rw [ev, hv]
    exact ⟨pre, _, .done here, fun _ => rfl, by simp⟩
  · have here' : Addressable (pre ++ t.lead.toList ++ t.text.toList) (written ts ++ post) := by
      left
      rw [append_assoc, e]
      simp
    obtain ⟨pre', post', walk, -, last⟩ := rest here'
    rw [joinTokensFrom_newline sane hn laid hv, ev]
    refine ⟨pre', post', .line hskip here ?_, fun h => absurd h hv, last⟩
    have epre : pre ++ skipped ++ ['\n'] = pre ++ t.lead.toList ++ t.text.toList := by
      rw [append_assoc, ← e, append_assoc]
    rwa [epre]

theorem Walks.solid {pre post : List Char} {t : Token} {ts : List Token} (sane : t.Sane)
    (start : t.start = Position.after ⟨1, 0⟩ (pre ++ t.lead.toList)) (hs : t.kind.isSolid = true)
    (rest : Walks (pre ++ t.lead.toList ++ t.text.toList) ts post) : Walks pre (t :: ts) post := by
  have solid := sane.solid hs
  have ev : valueTokens (t :: ts) = t :: valueTokens ts := by
    simp [valueTokens, (TokenKind.isSolid_iff.1 hs).1]
  have hn : '\n' ∉ t.lead.toList ++ t.text.toList := by
    simp [sane.lead, solid.oneLine]
  obtain ⟨c, hc, hr⟩ := solid.exists_last
  have hlast : (t.lead.toList ++ t.text.toList).getLast? = some c := by
    rw [getLast?_append, hc, Option.some_or]
  obtain ⟨pre', post', walk, stay, last⟩ := rest
  refine ⟨pre', post', ?_, by simp [ev], ?_⟩
  · have first := follows_text hn hlast hr pre (written ts ++ post)
    rw [← append_assoc pre] at first
    have := first.append walk
    rw [joinTokensFrom_solid sane start hs]
    simpa using this
  · intro u hu
    rw [ev] at hu
    cases hv : valueTokens ts with
    | nil =>
      rw [hv] at hu
      obtain rfl : t = u := Option.some.inj hu
      rw [stay hv, Position.after_append, ← start, solid.stop_eq]
    | cons v vs =>
      apply last u
      rw [hv] at hu ⊢
      rwa [getLast?_cons_of_ne_nil (cons_ne_nil _ _)] at hu

theorem walks_tokens (post : List Char) {used : List Token}
    (hk : ∀ t ∈ used, t.kind = .newline ∨ t.kind.isSolid = true) (laid : Laid pre used)
    (here : Addressable pre (written used ++ post)) : Walks pre used post := by
  induction used generalizing pre with
  | nil => exact ⟨pre, post, .done here, fun _ => rfl, by simp [valueTokens]⟩
  | cons t ts ih =>
    obtain ⟨sane, start, -, laid⟩ := laid
    have hts := fun u hu => hk u (mem_cons_of_mem t hu)
    rcases hk t mem_cons_self with hn | hs
    · exact .newline sane hn laid here (ih hts laid)
    · exact .solid sane start hs (ih hts laid ((sane.solid hs).addressable_stop _ _))

/-! ## Values of a file -/

/-- A value's text is walked along from the start of its span to the end. -/
theorem follows_tokens (post : List Char) {used : List Token} (laid : Laid pre used)
    (hk : ∀ t ∈ used, t.kind = .newline ∨ t.kind.isSolid = true) (hv : valueTokens used ≠ [])
    (equals : Token) :
    ∃ p q p' q', p ++ q = pre ++ (written used ++ post) ∧
      Follows p q (joinTokens (valueTokens used)) p' q' ∧
      valueSpan equals (valueTokens used) =
        ⟨Position.after ⟨1, 0⟩ p, Position.after ⟨1, 0⟩ p'⟩ := by
  obtain ⟨t, ts, e⟩ := exists_cons_of_ne_nil hv
  obtain ⟨front, us, rfl, -, hn, eus⟩ := filter_eq_cons_iff.1 e
  obtain ⟨-, laid⟩ := laid_append.1 laid
  obtain ⟨sane, start, -, laid⟩ := laid
  have solid : SolidText t.text.toList := by
    apply sane.solid
    exact (hk t (by simp)).resolve_left (by simpa using hn)
  obtain ⟨c, hc, hr⟩ := solid.exists_last
  have eline : (Position.after ⟨1, 0⟩
      (pre ++ written front ++ t.lead.toList ++ t.text.toList)).line = t.line := by
    rw [Position.after_append, ← start, Position.after_of_not_mem _ solid.oneLine]
    rfl
  obtain ⟨p', q', walk, stay, last⟩ := walks_tokens post
    (fun u hu => hk u (by simp [hu])) laid (solid.addressable_stop _ _)
  have first := follows_text solid.oneLine hc hr (pre ++ written front ++ t.lead.toList)
    (written us ++ post)
  rw [eline] at walk
  refine ⟨pre ++ written front ++ t.lead.toList,
    t.text.toList ++ (written us ++ post), p', q', ?_, ?_, ?_⟩
  · simp [written_append]
  · rw [e, ← eus]
    exact first.append walk
  · rw [e, ← start]
    cases hts : ts with
    | nil =>
      rw [stay (eus.trans hts), Position.after_append, ← start, ← solid.stop_eq]
      rfl
    | cons u vs =>
      have hl := getLast?_eq_some_getLast (cons_ne_nil u vs)
      rw [last _ ((congrArg getLast? (eus.trans hts)).trans hl)]
      rfl

/-- An assignment stands in the file with the tokens its value was read from. -/
theorem laid_assignment {b : Block} {key equals : Token} {value : List Token}
    {ending : ValueClose} {due : Bool} (hb : b ∈ blocksOf (Token.scan source))
    (h : .assignment key equals value ending due ∈ b.statements) :
    ∃ pre vs post rest, Laid pre (key :: equals :: vs) ∧ Inner vs ∧
      ValueRead vs (value, ending, rest) ∧
      pre ++ written (key :: equals :: vs) ++ post = source.toList := by
  obtain ⟨-, -, us, vs, after, rest, e, inner, -, read⟩ := exists_assignment hb h
  have laid := laid_scan source
  have whole := written_scan source
  rw [e] at laid whole
  refine ⟨_, vs, written after, rest, (laid_append.1 (laid_append.1 laid).2).1, inner, read, ?_⟩
  rw [← whole]
  simp [written_append]

/-- The text of a property is walked along from the start of its span to the end. -/
theorem value_walk {b : Block} (hb : b ∈ blocksOf (Token.scan source)) {st : Statement}
    (hst : st ∈ b.statements) {key : String} {p : Property} (e : st.property? = some (key, p))
    (hv : p.value ≠ "") :
    ∃ x y x' y', x ++ y = source.toList ∧ Follows x y p.value.toList x' y' ∧
      p.valueSpan = ⟨Position.after ⟨1, 0⟩ x, Position.after ⟨1, 0⟩ x'⟩ := by
  obtain ⟨key, equals, value, ending, due, rfl, -, rfl⟩ := assignment_of_property? e
  simp only [String.toList_ofList]
  have hne : value ≠ [] := by
    rintro rfl
    exact hv rfl
  obtain ⟨pre, vs, post, rest, laid, inner, read, whole⟩ := laid_assignment hb hst
  obtain ⟨-, -, -, -, -, -, laid⟩ := laid
  obtain ⟨used, more, rfl, rfl, run⟩ := read.exists_used
  obtain ⟨x, y, x', y', exy, walk, span⟩ := follows_tokens (written more ++ post)
    (laid_append.1 laid).1 (fun _ => run.solid inner.of_append.1) hne equals
  refine ⟨x, y, x', y', ?_, walk, span⟩
  rw [exy, ← whole]
  simp [written_append]

theorem value_stop {b : Block} (hb : b ∈ blocksOf (Token.scan source)) {st : Statement}
    (hst : st ∈ b.statements) {key : String} {p : Property} (e : st.property? = some (key, p))
    (hv : p.value ≠ "") : p.valueSpan.stop = p.valueSpan.start.after p.value.toList := by
  obtain ⟨x, y, x', y', -, walk, span⟩ := value_walk hb hst e hv
  rw [span]
  exact walk.stop_eq

/-- Counting inside a value and then in the file leads to the value's characters: for each of
them, and for the end of the value, the place has an address; the file has the value's character
there, line feeds apart; and the end of the value is the end of its span. -/
theorem value_place_in_file {source file : String} {o : Object} {k : String} {p : Property}
    (ho : o ∈ (Document.parse source file).objects) (hp : (k, p) ∈ o.properties)
    (hv : p.value ≠ "") {i : Nat} (hi : i ≤ p.value.length) :
    ∃ b, (p.valueSpan.start.shift (Position.within p.value.toList i)).byteOffset? source.toList =
        some b ∧
      (∀ c, p.value.toList[i]? = some c → c ≠ '\n' →
        (dropBytes b source.toList).head? = some c) ∧
      (i = p.value.length →
        p.valueSpan.start.shift (Position.within p.value.toList i) = p.valueSpan.stop) := by
  obtain ⟨block, hb, -, -, -, -, -, -, origin⟩ := object_origin ho
  obtain ⟨st, hst, key, n, e, -⟩ := origin k p hp
  obtain ⟨x, y, x', y', exy, walk, span⟩ := value_walk hb hst e hv
  rw [← String.length_toList] at hi ⊢
  obtain ⟨a, b, eab, here, place, char⟩ := walk.place hi
  rw [span, Position.shift_within, ← place, ← exy, ← eab]
  refine ⟨byteLength a, byteOffset?_after here, ?_, ?_⟩
  · intro c hc hn
    rw [dropBytes_byteLength]
    exact char c hc hn
  · rintro rfl
    rw [place, take_length, walk.stop_eq]

/-- The last character of a value on two lines, with blanks dropped at the end of the first. -/
theorem value_place_on_second_line :
    ∃ o ∈ (Document.parse "[A]\r\nk = é b \r\n  c;" "f").objects, ∃ q ∈ o.properties,
      q.2.value = "é b\n  c" ∧
      ∃ b, (q.2.valueSpan.start.shift (Position.within q.2.value.toList 6)).byteOffset?
          "[A]\r\nk = é b \r\n  c;".toList = some b ∧
        (dropBytes b "[A]\r\nk = é b \r\n  c;".toList).head? = some 'c' := by
  have h : ∃ o ∈ (Document.parse "[A]\r\nk = é b \r\n  c;" "f").objects, ∃ q ∈ o.properties,
      q.2.value = "é b\n  c" := by decide +kernel
  obtain ⟨o, ho, ⟨k, p⟩, hp, hv⟩ := h
  obtain ⟨b, hb, hc, -⟩ := value_place_in_file ho hp (i := 6) (by rw [hv]; decide)
    (by rw [hv]; decide)
  exact ⟨o, ho, ⟨k, p⟩, hp, hv, b, hb, hc 'c' (by rw [hv]; decide) (by decide)⟩

end ModCheck
