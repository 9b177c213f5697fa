import ModCheck.Proofs.Tiling

/-
  Reading by position. The readers of a file are recursive on the tokens that are left; here they
  are loops that move a position over all tokens, as one would run them, with no reason given why
  they should end: a loop has a number of rounds, and has no result if they are not enough. One
  round of each loop either ends it or moves the position on (`valueRound_spec`,
  `statementRound_spec`, `documentRound_spec`), also where recovery from a fault skips nothing, so
  each loop ends within as many rounds as there are tokens, with what the reader gives. Main
  statement: `reading_goes_forward`.
-/

namespace ModCheck

open List

/-! ## Loops -/

/-- What one round of a loop comes to: its result, or the state for the next round. -/
inductive Round (σ α : Type) where
  | stop (result : α)
  | next (state : σ)

/-- A loop of at most `n` rounds; none if it would go on, or if a round has no result itself. -/
def loop {σ α : Type} (round : σ → Option (Round σ α)) : Nat → σ → Option α
  | 0, _ => none
  | n + 1, state =>
    match round state with
    | none => none
    | some (.stop result) => some result
    | some (.next state) => loop round n state

/-- A round that started at `pos` ends the loop without going back, or moves the position on, and
never past `last`. -/
def Round.Forward {σ α : Type} (position : σ → Nat) (final : α → Nat) (pos last : Nat) :
    Round σ α → Prop
  | .stop result => pos ≤ final result ∧ final result ≤ last
  | .next state => pos < position state ∧ position state ≤ last

/-! ## Positions -/

/-- The kind of the token at a position; behind all tokens, the end of the file. -/
def kindAt (tokens : List Token) (pos : Nat) : TokenKind :=
  (tokens[pos]?.map Token.kind).getD .endOfFile

/-- The next position; the last token is not left. -/
def advance (tokens : List Token) (pos : Nat) : Nat :=
  if pos + 1 < tokens.length then pos + 1 else pos

/-- The first position from `pos` on whose token is not of the kinds to skip. -/
def skipAt (tokens : List Token) (skipped : TokenKind → Bool) (pos : Nat) : Nat :=
  pos + ((tokens.drop pos).takeWhile fun t => skipped t.kind).length

/-- Whether a property starts at a position. -/
def startsAt (tokens : List Token) (pos : Nat) : Bool :=
  kindAt tokens pos = .identifier && kindAt tokens (pos + 1) = .equals

/-- Whether the first token after a line break ends a value. -/
def endsValueAt (tokens : List Token) (pos : Nat) : Bool :=
  [.endOfFile, .leftBracket, .comment].contains (kindAt tokens pos) || startsAt tokens pos

/-- Whether a semicolon is missing at a position where a value ended without one. -/
def semicolonDueAt (tokens : List Token) (pos : Nat) : Bool :=
  let next := skipAt tokens [.newline, .comment].contains pos
  [.endOfFile, .leftBracket].contains (kindAt tokens next) || startsAt tokens next

/-- Not the kinds at which the search for a right bracket ends. -/
def TokenKind.inHeading (k : TokenKind) : Bool :=
  !List.contains [.rightBracket, .newline, .leftBracket, .endOfFile] k

/-- Behind a right bracket further on in the line, if there is one. -/
def skipHeadingAt (tokens : List Token) (pos : Nat) : Nat :=
  let next := skipAt tokens TokenKind.inHeading pos
  if kindAt tokens next = .rightBracket then next + 1 else pos

/-- Not the kinds at which a damaged property ends. -/
def TokenKind.inProperty (k : TokenKind) : Bool :=
  !List.contains [.newline, .semicolon, .leftBracket, .endOfFile] k

/-- At the end of the line, or behind a semicolon in it. -/
def skipPropertyAt (tokens : List Token) (pos : Nat) : Nat :=
  let next := skipAt tokens TokenKind.inProperty pos
  if kindAt tokens next = .semicolon then advance tokens next else next

/-! ## The loops of the readers -/

/-- One round in a value, with the tokens of the value so far. -/
def valueRound (tokens : List Token) : Nat × List Token →
    Option (Round (Nat × List Token) (List Token × ValueClose × Nat))
  | (pos, value) =>
    match tokens[pos]? with
    | none => some (.stop (value, .loose, pos))
    | some t =>
      if t.kind = .semicolon then some (.stop (value, .semicolon, advance tokens pos))
      else if [.comment, .leftBracket, .endOfFile].contains t.kind then
        some (.stop (value, .loose, pos))
      else if t.kind = .newline then
        let next := skipAt tokens (· == .newline) pos
        if endsValueAt tokens next then some (.stop (value, .loose, pos))
        else some (.next (next, value))
      else if startsAt tokens pos then some (.stop (value, .nextProperty, pos))
      else some (.next (advance tokens pos, value ++ [t]))

/-- The statement that starts with the name `key` at a position, and the position behind it. -/
def propertyAt (tokens : List Token) (pos : Nat) (key : Token) : Option (Statement × Nat) :=
  match tokens[advance tokens pos]? with
  | none => some (.bareName key, skipPropertyAt tokens (advance tokens pos))
  | some equals =>
    if equals.kind = .equals then
      (loop (valueRound tokens) tokens.length (advance tokens (advance tokens pos), [])).map
        fun (value, ending, pos) =>
          (.assignment key equals value ending (semicolonDueAt tokens pos), pos)
    else some (.bareName key, skipPropertyAt tokens (advance tokens pos))

/-- One round in the body of a section, with its statements so far. -/
def statementRound (tokens : List Token) : Nat × List Statement →
    Option (Round (Nat × List Statement) (List Statement × Nat))
  | (pos, statements) =>
    match tokens[pos]? with
    | none => some (.stop (statements, pos))
    | some t =>
      if [.endOfFile, .leftBracket].contains t.kind then some (.stop (statements, pos))
      else if [.newline, .comment, .semicolon].contains t.kind then
        some (.next (advance tokens pos, statements))
      else if t.kind = .identifier then
        (propertyAt tokens pos t).map fun (st, pos) => .next (pos, statements ++ [st])
      else some (.next (skipPropertyAt tokens pos, statements ++ [.stray t]))

/-- The heading at a position, and the position behind it. -/
def headingAt (tokens : List Token) (pos : Nat) : Heading × Nat :=
  match tokens[pos]? with
  | none => (.unnamed, pos)
  | some t =>
    if t.kind = .identifier then
      let next := advance tokens pos
      if kindAt tokens next = .rightBracket then (.named t true, advance tokens next)
      else (.named t false, skipHeadingAt tokens next)
    else (.unnamed, skipHeadingAt tokens pos)

/-- One round in a file, with the tokens before the first section and the sections read so far. -/
def documentRound (tokens : List Token) : Nat × List Token × List Block →
    Option (Round (Nat × List Token × List Block) (List Token × List Block × Nat))
  | (pos, stray, blocks) =>
    match tokens[pos]? with
    | none => some (.stop (stray, blocks, pos))
    | some t =>
      if t.kind = .endOfFile then some (.stop (stray, blocks, pos))
      else if t.kind = .leftBracket then
        let heading := headingAt tokens (advance tokens pos)
        (loop (statementRound tokens) tokens.length (heading.2, [])).map
          fun (statements, pos) => .next (pos, stray, blocks ++ [⟨t, heading.1, statements⟩])
      else some (.next (advance tokens pos, stray ++ [t], blocks))

/-! ## At a position of a section -/

/-- A position in a section: `rest` is left of the section, and `after` follows it. -/
structure Left (tokens : List Token) (pos : Nat) (rest after : List Token) : Prop where
  tokens_eq : tokens.drop pos = rest ++ after
  inner : Inner rest
  stops : ∃ t more, after = t :: more ∧ (t.kind = .leftBracket ∨ t.kind = .endOfFile)

section

variable {tokens rest rest' after ts : List Token} {pos pos' : Nat} {t : Token}

theorem getElem?_of_drop (h : tokens.drop pos = t :: ts) : tokens[pos]? = some t := by
  rw [← Nat.add_zero pos, ← getElem?_drop, h]
  rfl

theorem drop_succ_of_drop (h : tokens.drop pos = t :: ts) : tokens.drop (pos + 1) = ts := by
  rw [← drop_drop, h]
  rfl

theorem kindAt_of_drop (h : tokens.drop pos = t :: ts) : kindAt tokens pos = t.kind := by
  rw [kindAt, getElem?_of_drop h]
  rfl

theorem advance_of_drop (h : tokens.drop pos = t :: ts) (hne : ts ≠ []) :
    advance tokens pos = pos + 1 := by
  refine if_pos ?_
  have hlen := congrArg List.length h
  have hpos := length_pos_iff.2 hne
  rw [length_drop, length_cons] at hlen
  omega

/-- What does not depend on a first token of some kinds does not depend on any of them. -/
theorem apply_dropWhile {β : Type} {f : List Token → β} (skipped : TokenKind → Bool)
    (h : ∀ t ts, skipped t.kind = true → f (t :: ts) = f ts) (ts : List Token) :
    f (ts.dropWhile fun t => skipped t.kind) = f ts := by
  induction ts with
  | nil => rfl
  | cons t ts ih =>
    rw [dropWhile_cons]
    split
    · next ht => rw [ih, h t ts ht]
    · rfl

namespace Left

theorem length_eq (h : Left tokens pos rest after) :
    pos + (rest.length + after.length) = tokens.length := by
  obtain ⟨t, more, rfl, -⟩ := h.stops
  have hlen := congrArg List.length h.tokens_eq
  simp only [length_drop, length_append, length_cons] at hlen ⊢
  omega

theorem length_pos (h : Left tokens pos rest after) : 0 < after.length := by
  obtain ⟨t, more, rfl, -⟩ := h.stops
  exact Nat.succ_pos _

theorem tail (h : Left tokens pos (t :: ts) after) : Left tokens (pos + 1) ts after :=
  ⟨drop_succ_of_drop h.tokens_eq, fun u hu => h.inner u (mem_cons_of_mem _ hu), h.stops⟩

theorem getElem? (h : Left tokens pos (t :: ts) after) : tokens[pos]? = some t :=
  getElem?_of_drop h.tokens_eq

theorem kind (h : Left tokens pos (t :: ts) after) : kindAt tokens pos = t.kind :=
  kindAt_of_drop h.tokens_eq

theorem advance (h : Left tokens pos (t :: ts) after) : advance tokens pos = pos + 1 := by
  refine advance_of_drop h.tokens_eq (append_ne_nil_of_right_ne_nil _ ?_)
  exact ne_nil_of_length_pos h.length_pos

/-- At the end of a section. -/
theorem exists_stop (h : Left tokens pos [] after) : ∃ t, tokens[pos]? = some t ∧
    kindAt tokens pos = t.kind ∧ (t.kind = .leftBracket ∨ t.kind = .endOfFile) := by
  obtain ⟨t, more, rfl, stop⟩ := h.stops
  exact ⟨t, getElem?_of_drop h.tokens_eq, kindAt_of_drop h.tokens_eq, stop⟩

section

variable (h : Left tokens pos rest after)

include h

theorem skipAt (skipped : TokenKind → Bool) (hb : skipped .leftBracket = false)
    (he : skipped .endOfFile = false) :
    Left tokens (skipAt tokens skipped pos) (rest.dropWhile fun t => skipped t.kind) after := by
  refine ⟨?_, fun t ht => h.inner t ((dropWhile_sublist _).mem ht), h.stops⟩
  obtain ⟨t, more, rfl, stop⟩ := h.stops
  have hstop : skipped t.kind = false := by
    rcases stop with stop | stop <;> simp [stop, hb, he]
  have htake (rest : List Token) : ((rest ++ t :: more).takeWhile fun t => skipped t.kind) =
      rest.takeWhile fun t => skipped t.kind := by
    induction rest with
    | nil => simp [hstop]
    | cons u us ih => simp only [cons_append, takeWhile_cons, ih]
  rw [ModCheck.skipAt, ← drop_drop, h.tokens_eq, htake]
  conv_lhs => rw [← takeWhile_append_dropWhile (p := fun t => skipped t.kind) (l := rest)]
  rw [append_assoc, takeWhile_append_dropWhile, drop_left]

/-! ## Looking ahead -/

theorem startsAt : startsAt tokens pos = startsAssignment rest := by
  cases rest with
  | nil =>
    obtain ⟨t, -, kind, stop | stop⟩ := h.exists_stop <;>
      simp [ModCheck.startsAt, kind, stop, startsAssignment]
  | cons t ts =>
    cases ts with
    | nil =>
      obtain ⟨u, -, kind, stop | stop⟩ := h.tail.exists_stop <;>
        simp [ModCheck.startsAt, kind, stop, startsAssignment]
    | cons u us => simp [ModCheck.startsAt, h.kind, h.tail.kind, startsAssignment]

theorem endsValueAt : endsValueAt tokens pos = endsValue rest := by
  cases rest with
  | nil =>
    obtain ⟨t, -, kind, stop | stop⟩ := h.exists_stop <;>
      simp [ModCheck.endsValueAt, kind, stop, endsValue]
  | cons t ts =>
    obtain ⟨hb, he⟩ := h.inner t mem_cons_self
    simp [ModCheck.endsValueAt, h.kind, h.startsAt, endsValue, hb, he]

/-- Behind what is skipped, the section has ended or goes on with a token of another kind. -/
theorem skipAt_cases (skipped : TokenKind → Bool) (hb : skipped .leftBracket = false)
    (he : skipped .endOfFile = false) :
    (rest.dropWhile (fun t => skipped t.kind) = [] ∧
      Left tokens (ModCheck.skipAt tokens skipped pos) [] after) ∨
    ∃ t ts, rest.dropWhile (fun t => skipped t.kind) = t :: ts ∧ skipped t.kind = false ∧
      Left tokens (ModCheck.skipAt tokens skipped pos) (t :: ts) after := by
  have here := h.skipAt skipped hb he
  cases e : rest.dropWhile fun t => skipped t.kind with
  | nil => exact .inl ⟨rfl, e ▸ here⟩
  | cons t ts =>
    have first := head?_dropWhile_not (fun t : Token => skipped t.kind) rest
    rw [e] at here first
    exact .inr ⟨t, ts, rfl, first, here⟩

theorem semicolonDueAt : semicolonDueAt tokens pos = semicolonDue rest := by
  have skips := apply_dropWhile (f := semicolonDue) [.newline, .comment].contains
    (fun t ts ht => by rw [semicolonDue, if_pos (by simpa using ht)]) rest
  rw [ModCheck.semicolonDueAt, ← skips]
  rcases h.skipAt_cases [.newline, .comment].contains rfl rfl with
    ⟨e, here⟩ | ⟨t, ts, e, stop, here⟩
  · obtain ⟨t, -, kind, stop⟩ := here.exists_stop
    rw [e, kind]
    rcases stop with stop | stop <;> simp [stop, semicolonDue]
  · obtain ⟨hb, he⟩ := here.inner t mem_cons_self
    rw [e, semicolonDue, if_neg (by simpa using stop)]
    simp [here.kind, here.startsAt, hb, he]

theorem skipPropertyAt : Left tokens (skipPropertyAt tokens pos) (skipProperty rest) after := by
  have skips := apply_dropWhile (f := skipProperty) TokenKind.inProperty (fun t ts ht => by
    rw [skipProperty, if_neg (by rintro e; cases e ▸ ht), if_neg (by rintro e; cases e ▸ ht)]) rest
  rw [ModCheck.skipPropertyAt, ← skips]
  rcases h.skipAt_cases TokenKind.inProperty rfl rfl with ⟨e, here⟩ | ⟨t, ts, e, stop, here⟩
  · obtain ⟨t, -, kind, stop⟩ := here.exists_stop
    rw [if_neg (by rcases stop with stop | stop <;> simp [kind, stop]), e]
    exact here
  · obtain ⟨hb, he⟩ := here.inner t mem_cons_self
    rw [e, here.kind, skipProperty]
    by_cases hs : t.kind = .semicolon
    · rw [if_pos hs, if_neg (by simp [hs]), if_pos hs, here.advance]
      exact here.tail
    · have hn : t.kind = .newline := by simpa [TokenKind.inProperty, hs, hb, he] using stop
      rw [if_neg hs, if_pos hn]
      exact here

theorem skipHeadingAt : Left tokens (skipHeadingAt tokens pos) (skipHeading rest) after := by
  have skips := apply_dropWhile (f := afterBracket?) TokenKind.inHeading (fun t ts ht => by
    rw [afterBracket?, if_neg (by rintro e; cases e ▸ ht), if_neg (by rintro e; cases e ▸ ht)]) rest
  rw [ModCheck.skipHeadingAt, skipHeading, ← skips]
  rcases h.skipAt_cases TokenKind.inHeading rfl rfl with ⟨e, here⟩ | ⟨t, ts, e, stop, here⟩
  · obtain ⟨t, -, kind, stop⟩ := here.exists_stop
    rw [if_neg (by rcases stop with stop | stop <;> simp [kind, stop]), e]
    exact h
  · obtain ⟨hb, he⟩ := here.inner t mem_cons_self
    rw [e, here.kind, afterBracket?]
    by_cases hr : t.kind = .rightBracket
    · rw [if_pos hr, if_pos hr]
      exact here.tail
    · have hn : t.kind = .newline := by simpa [TokenKind.inHeading, hr, hb, he] using stop
      rw [if_neg hr, if_neg hr, if_pos hn]
      exact h

theorem headingAt : (headingAt tokens pos).1 = (readHeading rest).1 ∧
      Left tokens (headingAt tokens pos).2 (readHeading rest).2 after := by
  unfold ModCheck.headingAt
  cases rest with
  | nil =>
    obtain ⟨t, found, -, stop⟩ := h.exists_stop
    rw [found]
    dsimp only
    rw [if_neg (by rcases stop with stop | stop <;> simp [stop])]
    exact ⟨rfl, h.skipHeadingAt⟩
  | cons t ts =>
    rw [h.getElem?, h.advance]
    dsimp only
    by_cases ht : t.kind = .identifier
    · rw [if_pos ht]
      cases ts with
      | nil =>
        obtain ⟨u, -, kind, stop⟩ := h.tail.exists_stop
        rw [if_neg (by rcases stop with stop | stop <;> simp [kind, stop])]
        simp only [readHeading, if_pos ht]
        exact ⟨trivial, h.tail.skipHeadingAt⟩
      | cons u us =>
        rw [h.tail.kind, h.tail.advance]
        by_cases hu : u.kind = .rightBracket
        · simp only [readHeading, if_pos ht, if_pos hu]
          exact ⟨trivial, h.tail.tail⟩
        · simp only [readHeading, if_pos ht, if_neg hu]
          exact ⟨trivial, h.tail.skipHeadingAt⟩
    · rw [if_neg ht]
      cases ts <;> simp only [readHeading, if_neg ht] <;> exact ⟨trivial, h.skipHeadingAt⟩

end

end Left

/-! ## One round of each loop -/

theorem skipNewlines_eq (ts : List Token) :
    skipNewlines ts = ts.dropWhile (·.kind == .newline) := by
  induction ts with
  | nil => rfl
  | cons t ts ih => simp [skipNewlines, dropWhile_cons, ih]

/-- A round in a value ends it, or takes the next token or line breaks before more of it. -/
theorem valueRound_spec (h : Left tokens pos rest after) (value : List Token) :
    (∃ pos', valueRound tokens (pos, value) =
        some (.stop (value ++ (readValue rest).1, (readValue rest).2.1, pos')) ∧
      Left tokens pos' (readValue rest).2.2 after) ∨
    ∃ pos' rest' more, valueRound tokens (pos, value) = some (.next (pos', value ++ more)) ∧
      Left tokens pos' rest' after ∧ rest'.length < rest.length ∧
      readValue rest = (more ++ (readValue rest').1, (readValue rest').2) := by
  unfold valueRound
  dsimp only
  cases rest with
  | nil =>
    obtain ⟨t, found, -, stop⟩ := h.exists_stop
    rw [found, readValue]
    refine .inl ⟨pos, ?_, h⟩
    rcases stop with stop | stop <;> simp [stop]
  | cons t ts =>
    obtain ⟨hb, he⟩ := h.inner t mem_cons_self
    rw [h.getElem?, readValue]
    dsimp only
    by_cases hs : t.kind = .semicolon
    · rw [if_pos hs, if_pos hs, h.advance]
      exact .inl ⟨pos + 1, by simp, h.tail⟩
    rw [if_neg hs, if_neg hs]
    by_cases hc : t.kind = .comment
    · rw [if_pos (by simp [hc]), if_pos hc]
      exact .inl ⟨pos, by simp, h⟩
    rw [if_neg (by simp [hc, hb, he])]
    by_cases hn : t.kind = .newline
    · have next := h.skipAt (· == .newline) rfl rfl
      rw [dropWhile_cons_of_pos (by simp [hn]), ← skipNewlines_eq] at next
      rw [if_pos hn, next.endsValueAt]
      split
      · exact .inl ⟨pos, by simp, h⟩
      · exact .inr ⟨_, _, [], by simp, next,
          Nat.lt_succ_of_le (skipNewlines_length_le ts), by simp⟩
    rw [if_neg hn, h.startsAt]
    split
    · exact .inl ⟨pos, by simp, h⟩
    · rw [h.advance]
      exact .inr ⟨_, _, [t], rfl, h.tail, Nat.lt_succ_self _, rfl⟩

theorem loop_value (h : Left tokens pos rest after) (value : List Token) {n : Nat}
    (hn : rest.length < n) :
    ∃ pos', loop (valueRound tokens) n (pos, value) =
        some (value ++ (readValue rest).1, (readValue rest).2.1, pos') ∧
      Left tokens pos' (readValue rest).2.2 after := by
  induction n generalizing pos rest value with
  | zero => exact absurd hn (Nat.not_lt_zero _)
  | succ n ih =>
    rcases valueRound_spec h value with ⟨pos', round, stop⟩ | ⟨_, _, more, round, next, lt, e⟩
    · exact ⟨pos', by simp [loop, round], stop⟩
    · obtain ⟨last, result, left⟩ := ih next (value ++ more) (by omega)
      rw [e]
      exact ⟨last, by simp [loop, round, result], left⟩

/-- A name starts a statement that ends further on. -/
theorem propertyAt_spec (h : Left tokens pos (t :: ts) after) (hk : t.kind = .identifier) :
    ∃ st pos' rest', propertyAt tokens pos t = some (st, pos') ∧ Left tokens pos' rest' after ∧
      rest'.length ≤ ts.length ∧ readStatements (t :: ts) = st :: readStatements rest' := by
  have bare (ha : startsAssignment (t :: ts) = false) : ∃ st pos' rest',
      some (Statement.bareName t, skipPropertyAt tokens (pos + 1)) = some (st, pos') ∧
      Left tokens pos' rest' after ∧ rest'.length ≤ ts.length ∧
      readStatements (t :: ts) = st :: readStatements rest' :=
    ⟨_, _, _, rfl, h.tail.skipPropertyAt, skipProperty_length_le ts,
      readStatements_bareName hk ha⟩
  unfold propertyAt
  rw [h.advance]
  cases ts with
  | nil =>
    obtain ⟨u, found, -, stop⟩ := h.tail.exists_stop
    rw [found]
    dsimp only
    rw [if_neg (by rcases stop with stop | stop <;> simp [stop])]
    exact bare rfl
  | cons e vs =>
    rw [h.tail.getElem?, h.tail.advance]
    dsimp only
    by_cases he : e.kind = .equals
    · have fuel : vs.length < tokens.length := by
        have := h.tail.tail.length_eq
        omega
      obtain ⟨pos', value, left⟩ := loop_value h.tail.tail [] fuel
      rw [if_pos he, value]
      refine ⟨_, pos', _, rfl, left, Nat.le_succ_of_le (readValue_length_le vs), ?_⟩
      rw [readStatements_assignment hk he, left.semicolonDueAt, nil_append]
    · rw [if_neg he]
      exact bare (by simp [startsAssignment, he])

/-- A round in a body ends it, or gives at most one statement. -/
theorem statementRound_spec (h : Left tokens pos rest after) (sts : List Statement) :
    (rest = [] ∧ statementRound tokens (pos, sts) = some (.stop (sts, pos))) ∨
    ∃ pos' rest' more, statementRound tokens (pos, sts) = some (.next (pos', sts ++ more)) ∧
      Left tokens pos' rest' after ∧ rest'.length < rest.length ∧
      readStatements rest = more ++ readStatements rest' := by
  unfold statementRound
  dsimp only
  cases rest with
  | nil =>
    obtain ⟨t, found, -, stop⟩ := h.exists_stop
    rw [found]
    rcases stop with stop | stop <;> simp [stop]
  | cons t ts =>
    obtain ⟨hb, he⟩ := h.inner t mem_cons_self
    right
    rw [h.getElem?]
    dsimp only
    rw [if_neg (by simp [hb, he])]
    by_cases hs : t.Separates
    · rw [if_pos (by simpa [Token.Separates] using hs), h.advance, readStatements_separator hs]
      exact ⟨_, _, [], by simp, h.tail, Nat.lt_succ_self _, rfl⟩
    rw [if_neg (by simpa [Token.Separates] using hs)]
    by_cases hk : t.kind = .identifier
    · obtain ⟨st, pos', rest', property, left, le, e⟩ := propertyAt_spec h hk
      rw [if_pos hk, property, e]
      exact ⟨_, _, [st], rfl, left, Nat.lt_succ_of_le le, rfl⟩
    · -- a token that starts nothing is skipped itself, so the position moves on
      have skips : skipProperty (t :: ts) = skipProperty ts := by
        simp only [Token.Separates, not_or] at hs
        rw [skipProperty, if_neg hs.1, if_neg hs.2.2]
      have left := h.skipPropertyAt
      rw [skips] at left
      rw [if_neg hk, readStatements_stray hs hk]
      exact ⟨_, _, [.stray t], rfl, left, Nat.lt_succ_of_le (skipProperty_length_le ts), rfl⟩

theorem loop_statements (h : Left tokens pos rest after) (sts : List Statement) {n : Nat}
    (hn : rest.length < n) :
    ∃ pos', loop (statementRound tokens) n (pos, sts) =
        some (sts ++ readStatements rest, pos') ∧ Left tokens pos' [] after := by
  induction n generalizing pos rest sts with
  | zero => exact absurd hn (Nat.not_lt_zero _)
  | succ n ih =>
    rcases statementRound_spec h sts with ⟨rfl, round⟩ | ⟨pos', rest', more, round, next, lt, e⟩
    · exact ⟨pos, by simp [loop, round, readStatements], h⟩
    · obtain ⟨last, result, left⟩ := ih next (sts ++ more) (by omega)
      rw [e]
      exact ⟨last, by simp [loop, round, result], left⟩

/-! ## Sections one after the other -/

theorem exists_left (h : ∃ t ∈ tokens.drop pos, t.kind = .endOfFile) :
    ∃ after, Left tokens pos (splitSections (tokens.drop pos)).1 after ∧
      splitSections after = ([], (splitSections (tokens.drop pos)).2) := by
  obtain ⟨after, e, ends, rest⟩ := splitSections_stray (tokens.drop pos)
  have inner := (inner_splitSections (tokens.drop pos)).1
  cases after with
  | nil =>
    obtain ⟨t, ht, he⟩ := h
    rw [e, append_nil] at ht
    exact absurd he (inner t ht).2
  | cons s more => exact ⟨s :: more, ⟨e, inner, s, more, rfl, ends s rfl⟩, rest⟩

/-- What is left of the tokens behind a section holds the end of the file. -/
theorem Left.exists_end (h : Left tokens pos rest after)
    (hend : ∃ t ∈ rest ++ after, t.kind = .endOfFile) : ∃ t ∈ after, t.kind = .endOfFile := by
  obtain ⟨t, ht, he⟩ := hend
  rcases mem_append.1 ht with ht | ht
  · exact absurd he (h.inner t ht).2
  · exact ⟨t, ht, he⟩

/-- A round in a file ends at the end of the file, or passes over a token or over a section. -/
theorem documentRound_spec (hend : ∃ t ∈ tokens.drop pos, t.kind = .endOfFile)
    (stray : List Token) (blocks : List Block) :
    (kindAt tokens pos = .endOfFile ∧ splitSections (tokens.drop pos) = ([], []) ∧
      documentRound tokens (pos, stray, blocks) = some (.stop (stray, blocks, pos))) ∨
    ∃ pos' us bs,
      documentRound tokens (pos, stray, blocks) = some (.next (pos', stray ++ us, blocks ++ bs)) ∧
      pos < pos' ∧ (∃ t ∈ tokens.drop pos', t.kind = .endOfFile) ∧
      (splitSections (tokens.drop pos)).1 = us ++ (splitSections (tokens.drop pos')).1 ∧
      blocksOf (tokens.drop pos) = bs ++ blocksOf (tokens.drop pos') := by
  obtain ⟨t, ts, e⟩ : ∃ t ts, tokens.drop pos = t :: ts :=
    exists_cons_of_ne_nil (by rintro e; simp [e] at hend)
  have found := getElem?_of_drop e
  have tail := drop_succ_of_drop e
  unfold documentRound
  rw [e] at hend ⊢
  dsimp only
  rw [found, kindAt_of_drop e]
  dsimp only
  by_cases he : t.kind = .endOfFile
  · exact .inl ⟨he, by simp [splitSections, he], if_pos he⟩
  have hend' : ∃ u ∈ tokens.drop (pos + 1), u.kind = .endOfFile := by
    rw [tail]
    simpa [he] using hend
  have hadvance : advance tokens pos = pos + 1 :=
    advance_of_drop e (by rintro rfl; simp [tail] at hend')
  right
  rw [if_neg he, hadvance]
  by_cases hb : t.kind = .leftBracket
  · obtain ⟨after, left, rest⟩ := exists_left hend'
    obtain ⟨heading, body⟩ := left.headingAt
    have fuel : (readHeading (splitSections (tokens.drop (pos + 1))).1).2.length <
        tokens.length := by
      have := body.length_eq
      have := body.length_pos
      omega
    obtain ⟨pos', statements, last⟩ := loop_statements body [] fuel
    have behind : tokens.drop pos' = after := last.tokens_eq
    have lt : pos < pos' := by
      have := left.length_eq
      have := last.length_eq
      simp only [length_nil] at this
      omega
    rw [if_pos hb, statements, heading]
    refine ⟨pos', [], [Section.toBlock ⟨t, (splitSections (tokens.drop (pos + 1))).1⟩],
      by simp [Section.toBlock], lt, ?_, ?_, ?_⟩
    · rw [behind]
      exact left.exists_end (left.tokens_eq ▸ hend')
    · rw [behind, rest]
      simp [splitSections, hb]
    · rw [behind, blocksOf, blocksOf, rest, tail]
      simp [splitSections, hb]
  · rw [if_neg hb]
    refine ⟨pos + 1, [t], [], by simp, Nat.lt_succ_self _, hend', ?_, ?_⟩
    · simp [tail, splitSections, he, hb]
    · simp [blocksOf, tail, splitSections, he, hb]

theorem loop_document (hend : ∃ t ∈ tokens.drop pos, t.kind = .endOfFile) (stray : List Token)
    (blocks : List Block) {n : Nat} (hn : tokens.length - pos ≤ n) :
    ∃ pos', loop (documentRound tokens) n (pos, stray, blocks) =
        some (stray ++ (splitSections (tokens.drop pos)).1, blocks ++ blocksOf (tokens.drop pos),
          pos') ∧ pos' < tokens.length ∧ kindAt tokens pos' = .endOfFile := by
  have hlt : pos < tokens.length := by
    obtain ⟨t, ht, -⟩ := hend
    have := length_pos_of_mem ht
    rw [length_drop] at this
    omega
  induction n generalizing pos stray blocks with
  | zero => omega
  | succ n ih =>
    rcases documentRound_spec hend stray blocks with
      ⟨he, none, round⟩ | ⟨pos', us, bs, round, lt, hend', hus, hbs⟩
    · exact ⟨pos, by simp [loop, round, none, blocksOf], hlt, he⟩
    · have hlt' : pos' < tokens.length := by
        obtain ⟨t, ht, -⟩ := hend'
        have := length_pos_of_mem ht
        rw [length_drop] at this
        omega
      obtain ⟨last, result, found⟩ := ih hend' (stray ++ us) (blocks ++ bs) (by omega) hlt'
      refine ⟨last, ?_, found⟩
      simp [loop, round, result, hus, hbs]

end

/-! ## The whole file -/

/-- The end of the file stands at the last position of the tokens, and nowhere else. -/
structure EndsAt (tokens : List Token) (last : Nat) : Prop where
  length_eq : last + 1 = tokens.length
  kind_iff : ∀ pos ≤ last, kindAt tokens pos = .endOfFile ↔ pos = last

theorem scan_endsAt (source : String) :
    EndsAt (Token.scan source) ((Token.scan source).length - 1) := by
  obtain ⟨init, e, scanned, he, -, hinit⟩ := scan_exists_end source
  rw [scanned]
  refine ⟨by simp, fun pos hpos => ?_⟩
  simp only [length_append, length_singleton, Nat.add_sub_cancel] at hpos ⊢
  rcases Nat.lt_or_eq_of_le hpos with lt | rfl
  · have inside : kindAt (init ++ [e]) pos = (init[pos]).kind := by
      simp [kindAt, getElem?_append_left lt, lt]
    rw [inside]
    exact ⟨fun h => absurd h (hinit _ (getElem_mem lt)).1, fun h => absurd h lt.ne⟩
  · simp [kindAt, he]

namespace EndsAt

variable {tokens rest after : List Token} {pos last : Nat}

theorem exists_end (h : EndsAt tokens last) (hpos : pos ≤ last) :
    ∃ t ∈ tokens.drop pos, t.kind = .endOfFile := by
  have lt : last < tokens.length := by
    have := h.length_eq
    omega
  refine ⟨tokens[last], mem_drop_iff_getElem.2 ⟨last - pos, by omega, by congr 1; omega⟩, ?_⟩
  simpa [kindAt, lt] using (h.kind_iff last (Nat.le_refl _)).2 rfl

theorem le_of_left (h : EndsAt tokens last) (left : Left tokens pos rest after) : pos ≤ last := by
  have := left.length_eq
  have := left.length_pos
  have := h.length_eq
  omega

theorem forward_value (h : EndsAt tokens last) (hpos : pos ≤ last) (value : List Token) :
    ∃ r, valueRound tokens (pos, value) = some r ∧ r.Forward (·.1) (·.2.2) pos last := by
  obtain ⟨after, left, -⟩ := exists_left (h.exists_end hpos)
  have here := left.length_eq
  rcases valueRound_spec left value with ⟨pos', round, stop⟩ | ⟨pos', _, _, round, next, lt, -⟩
  · have := readValue_length_le (splitSections (tokens.drop pos)).1
    have := stop.length_eq
    exact ⟨_, round, show pos ≤ pos' by omega, h.le_of_left stop⟩
  · have := next.length_eq
    exact ⟨_, round, show pos < pos' by omega, h.le_of_left next⟩

theorem forward_statement (h : EndsAt tokens last) (hpos : pos ≤ last) (sts : List Statement) :
    ∃ r, statementRound tokens (pos, sts) = some r ∧ r.Forward (·.1) (·.2) pos last := by
  obtain ⟨after, left, -⟩ := exists_left (h.exists_end hpos)
  have here := left.length_eq
  rcases statementRound_spec left sts with ⟨-, round⟩ | ⟨pos', _, _, round, next, lt, -⟩
  · exact ⟨_, round, Nat.le_refl _, hpos⟩
  · have := next.length_eq
    exact ⟨_, round, show pos < pos' by omega, h.le_of_left next⟩

theorem forward_document (h : EndsAt tokens last) (hpos : pos ≤ last) (stray : List Token)
    (blocks : List Block) :
    ∃ r, documentRound tokens (pos, stray, blocks) = some r ∧
      r.Forward (·.1) (·.2.2) pos last := by
  rcases documentRound_spec (h.exists_end hpos) stray blocks with
    ⟨-, -, round⟩ | ⟨pos', _, _, round, lt, hend, -, -⟩
  · exact ⟨_, round, Nat.le_refl _, hpos⟩
  · obtain ⟨after, left, -⟩ := exists_left hend
    exact ⟨_, round, lt, h.le_of_left left⟩

/-- The loop over a file ends where the file does, with what is read of it. -/
theorem loop_eq (h : EndsAt tokens last) :
    loop (documentRound tokens) tokens.length (0, [], []) =
      some ((splitSections tokens).1, blocksOf tokens, last) := by
  obtain ⟨pos, result, lt, found⟩ :=
    loop_document (h.exists_end (Nat.zero_le last)) [] [] (Nat.sub_le _ _)
  have hlength := h.length_eq
  obtain rfl := (h.kind_iff pos (by omega)).1 found
  simpa using result

end EndsAt

/-- Every round of the three loops over the tokens of a text, at whatever position, ends its loop or
moves the position on, never past the end of the file. The loop over the whole text ends there, and
what has been read by then is what the text is read as. -/
theorem reading_goes_forward (source file : String) :
    let tokens := Token.scan source
    let last := tokens.length - 1
    EndsAt tokens last ∧
      (∀ pos ≤ last,
        (∀ value, ∃ r, valueRound tokens (pos, value) = some r ∧
          r.Forward (·.1) (·.2.2) pos last) ∧
        (∀ statements, ∃ r, statementRound tokens (pos, statements) = some r ∧
          r.Forward (·.1) (·.2) pos last) ∧
        ∀ stray blocks, ∃ r, documentRound tokens (pos, stray, blocks) = some r ∧
          r.Forward (·.1) (·.2.2) pos last) ∧
      ∃ stray blocks,
        loop (documentRound tokens) tokens.length (0, [], []) = some (stray, blocks, last) ∧
        Document.parse source file =
          ⟨linkNeighbours (blocks.filterMap (Block.object? file)),
            strayMessages file stray ++ blocks.flatMap (Block.messages file)⟩ := by
  intro tokens last
  have ends : EndsAt tokens last := scan_endsAt source
  refine ⟨ends, fun pos hpos => ⟨?_, ?_, ?_⟩, _, _, ends.loop_eq, rfl⟩
  · exact ends.forward_value hpos
  · exact ends.forward_statement hpos
  · exact ends.forward_document hpos

end ModCheck
