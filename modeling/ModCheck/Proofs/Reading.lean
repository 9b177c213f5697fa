import Mathlib.Data.List.Flatten
import ModCheck.Document

/-
  Which tokens each reader uses. A file's tokens are the stray ones and those of its sections, in
  order; headings and damaged properties leave an end of what they were given. What a value reader
  returns is said without running it: `ValueRead` names the tokens it passes over and why it stops
  (`readValue_eq_iff`). A property of an object goes back to one assignment in one section.
-/

namespace ModCheck

open List

variable {ending : ValueClose} {key t : Token} {o : Object}
  {r : List Token × ValueClose × List Token} {rest ts value : List Token}

/-! ## Sections -/

theorem splitSections_append (ts : List Token) :
    ∃ rest, ts = (splitSections ts).1 ++
      (splitSections ts).2.flatMap (fun s => s.opening :: s.tokens) ++ rest := by
  induction ts with
  | nil => exact ⟨[], rfl⟩
  | cons t ts ih =>
    obtain ⟨rest, h⟩ := ih
    unfold splitSections
    split
    · exact ⟨t :: ts, rfl⟩
    · dsimp only
      split
      · exact ⟨rest, by simpa using h⟩
      · exact ⟨rest, by simpa using h⟩

/-- Tokens that stand between brackets. -/
def Inner (ts : List Token) : Prop :=
  ∀ t ∈ ts, t.kind ≠ .leftBracket ∧ t.kind ≠ .endOfFile

theorem inner_splitSections (ts : List Token) :
    Inner (splitSections ts).1 ∧
      ∀ s ∈ (splitSections ts).2, s.opening.kind = .leftBracket ∧ Inner s.tokens := by
  induction ts with
  | nil => simp [splitSections, Inner]
  | cons t ts ih =>
    obtain ⟨stray, sections⟩ := ih
    unfold splitSections
    split
    · simp [Inner]
    · next he =>
      split
      · next hb => exact ⟨by simp [Inner], forall_mem_cons.2 ⟨⟨hb, stray⟩, sections⟩⟩
      · next hb => exact ⟨forall_mem_cons.2 ⟨⟨hb, he⟩, stray⟩, sections⟩

theorem Inner.of_append {us : List Token} (h : Inner (ts ++ us)) : Inner ts ∧ Inner us :=
  forall_mem_append.1 h

/-- Such tokens stay with those before the first section. -/
theorem splitSections_inner (h : Inner ts) (us : List Token) :
    splitSections (ts ++ us) = (ts ++ (splitSections us).1, (splitSections us).2) := by
  induction ts with
  | nil => rfl
  | cons t ts ih =>
    obtain ⟨hbracket, hend⟩ := h t mem_cons_self
    rw [cons_append, splitSections, if_neg hend,
      ih fun u hu => h u (mem_cons_of_mem _ hu), if_neg hbracket]
    rfl

theorem splitSections_end (he : t.kind = .endOfFile) (ts : List Token) :
    splitSections (t :: ts) = ([], []) := by
  rw [splitSections, if_pos he]

theorem splitSections_bracket (hb : t.kind = .leftBracket) (ts : List Token) :
    splitSections (t :: ts) = ([], ⟨t, (splitSections ts).1⟩ :: (splitSections ts).2) := by
  rw [splitSections, if_neg (by simp [hb])]
  rw [if_pos hb]

/-- Tokens from the start of a section or the end of the file on. -/
def SectionEnds (ts : List Token) : Prop :=
  ∀ t, ts.head? = some t → t.kind = .leftBracket ∨ t.kind = .endOfFile

/-- The tokens before the first section end where it starts, or with the file. -/
theorem splitSections_stray (ts : List Token) :
    ∃ after, ts = (splitSections ts).1 ++ after ∧ SectionEnds after ∧
      splitSections after = ([], (splitSections ts).2) := by
  induction ts with
  | nil => exact ⟨[], rfl, by simp [SectionEnds], rfl⟩
  | cons t ts ih =>
    by_cases he : t.kind = .endOfFile
    · rw [splitSections_end he]
      exact ⟨t :: ts, rfl, fun u hu => .inr (Option.some.inj hu ▸ he), splitSections_end he ts⟩
    by_cases hb : t.kind = .leftBracket
    · rw [splitSections_bracket hb]
      exact ⟨t :: ts, rfl, fun u hu => .inl (Option.some.inj hu ▸ hb), splitSections_bracket hb ts⟩
    · obtain ⟨after, e, ends, rest⟩ := ih
      have inner : Inner [t] := fun u hu => mem_singleton.1 hu ▸ ⟨hb, he⟩
      rw [← singleton_append, splitSections_inner inner]
      exact ⟨after, congrArg (t :: ·) e, ends, rest⟩

/-- The tokens of a section stand together. -/
theorem mem_splitSections {s : Section} (h : s ∈ (splitSections ts).2) :
    ∃ before after, ts = before ++ s.opening :: s.tokens ++ after ∧ SectionEnds after := by
  induction ts with
  | nil => simp [splitSections] at h
  | cons t ts ih =>
    have later (h : s ∈ (splitSections ts).2) : ∃ before after,
        t :: ts = before ++ s.opening :: s.tokens ++ after ∧ SectionEnds after := by
      obtain ⟨before, after, e, ends⟩ := ih h
      exact ⟨t :: before, after, congrArg (t :: ·) e, ends⟩
    by_cases he : t.kind = .endOfFile
    · simp [splitSections_end he] at h
    by_cases hb : t.kind = .leftBracket
    · rw [splitSections_bracket hb] at h
      rcases mem_cons.1 h with rfl | h
      · obtain ⟨after, e, ends, -⟩ := splitSections_stray ts
        exact ⟨[], after, congrArg (t :: ·) e, ends⟩
      · exact later h
    · have inner : Inner [t] := fun u hu => mem_singleton.1 hu ▸ ⟨hb, he⟩
      rw [← singleton_append, splitSections_inner inner] at h
      exact later h

/-! ## Headings and damaged properties -/

theorem afterBracket?_suffix (h : afterBracket? ts = some rest) : rest <:+ ts := by
  induction ts with
  | nil => simp [afterBracket?] at h
  | cons t ts ih =>
    unfold afterBracket? at h
    split at h
    · obtain rfl := Option.some.inj h
      exact suffix_cons t ts
    · split at h
      · simp at h
      · exact (ih h).trans (suffix_cons t ts)

theorem skipHeading_suffix (ts : List Token) : skipHeading ts <:+ ts := by
  unfold skipHeading
  cases h : afterBracket? ts with
  | none => exact suffix_refl ts
  | some rest => exact afterBracket?_suffix h

theorem readHeading_suffix (ts : List Token) : (readHeading ts).2 <:+ ts := by
  fun_cases readHeading ts with
  | case1 => exact suffix_refl _
  | case2 t => exact nil_suffix
  | case3 t _ close rest => exact (suffix_cons close rest).trans (suffix_cons t _)
  | case4 t => exact (skipHeading_suffix _).trans (suffix_cons t _)
  | case5 => exact skipHeading_suffix _

/-- A type name is the first token of its section and not part of the body. -/
theorem readHeading_named {name : Token} {closed : Bool}
    (h : (readHeading ts).1 = .named name closed) :
    name.kind = .identifier ∧ ∃ tail, ts = name :: tail ∧ (readHeading ts).2 <:+ tail := by
  fun_cases readHeading ts with
  | case1 => simp [readHeading] at h
  | case2 t hk =>
    obtain ⟨rfl, -⟩ : t = name ∧ _ := by simpa [readHeading, hk] using h
    exact ⟨hk, _, rfl, nil_suffix⟩
  | case3 t hk close rest hc =>
    obtain ⟨rfl, -⟩ : t = name ∧ _ := by simpa [readHeading, hk, hc] using h
    exact ⟨hk, _, rfl, suffix_cons close rest⟩
  | case4 t hk close rest hc =>
    obtain ⟨rfl, -⟩ : t = name ∧ _ := by simpa [readHeading, hk, hc] using h
    exact ⟨hk, _, rfl, skipHeading_suffix _⟩
  | case5 t ts hk => cases ts <;> simp [readHeading, hk] at h

theorem skipProperty_suffix (ts : List Token) : skipProperty ts <:+ ts := by
  induction ts with
  | nil => exact suffix_refl _
  | cons t ts ih =>
    unfold skipProperty
    split
    · exact suffix_refl _
    · split
      · exact suffix_cons t ts
      · exact ih.trans (suffix_cons t ts)

/-! ## Values -/

/-- Tokens that a value goes on over when `rest` follows them. -/
def Runs : List Token → List Token → Prop
  | [], _ => True
  | t :: ts, rest =>
    t.kind ≠ .semicolon ∧ t.kind ≠ .comment ∧ startsAssignment (t :: (ts ++ rest)) = false ∧
      Runs ts rest

/-- Tokens without a line break at the end. -/
def EndsSolid (ts : List Token) : Prop :=
  ∀ t, ts.getLast? = some t → t.kind ≠ .newline

/-- Whether a value ends here without a semicolon or another property on its line. -/
def stopsValue : List Token → Bool
  | [] => true
  | t :: ts => t.kind = .comment || (t.kind = .newline && endsValue (skipNewlines ts))

/-- The tokens of a value among those it goes on over. -/
def valueTokens (used : List Token) : List Token :=
  used.filter fun t => t.kind ≠ .newline

/-- What reading a value gives: it goes on over the tokens `used` and stops for a reason. -/
inductive ValueRead : List Token → List Token × ValueClose × List Token → Prop
  | semicolon {used rest : List Token} {s : Token} (run : Runs used (s :: rest))
      (stop : s.kind = .semicolon) :
      ValueRead (used ++ s :: rest) (valueTokens used, .semicolon, rest)
  | nextProperty {used rest : List Token} (run : Runs used rest) (last : EndsSolid used)
      (stop : startsAssignment rest = true) :
      ValueRead (used ++ rest) (valueTokens used, .nextProperty, rest)
  | loose {used rest : List Token} (run : Runs used rest) (last : EndsSolid used)
      (stop : stopsValue rest = true) :
      ValueRead (used ++ rest) (valueTokens used, .loose, rest)

theorem runs_nil (rest : List Token) : Runs [] rest := trivial

theorem endsSolid_nil : EndsSolid [] := fun _ h => nomatch h

theorem startsAssignment_of_ne (h : t.kind ≠ .identifier) (ts : List Token) :
    startsAssignment (t :: ts) = false := by
  cases ts <;> simp [startsAssignment, h]

theorem kind_of_startsAssignment (h : startsAssignment (t :: ts) = true) :
    t.kind = .identifier := by
  cases ts with
  | nil => simp [startsAssignment] at h
  | cons u us =>
    simp only [startsAssignment, Bool.and_eq_true, decide_eq_true_eq] at h
    exact h.1

/-- A line break that does not end the value makes no difference to it. -/
theorem readValue_newline (ht : t.kind = .newline) (h : endsValue (skipNewlines ts) = false) :
    readValue (t :: ts) = readValue ts := by
  have e : readValue (t :: ts) = readValue (skipNewlines ts) := by
    rw [readValue]
    simp [ht, h]
  rw [e]
  cases ts with
  | nil => rfl
  | cons u us =>
    unfold skipNewlines at h ⊢
    split
    · next hu =>
      rw [if_pos hu] at h
      rw [readValue.eq_2]
      simp [hu, h]
    · rfl

/-- Where a value stops, a line break in front would end it as well. -/
theorem endsValue_of_stop (h : startsAssignment ts = true ∨ stopsValue ts = true) :
    endsValue (skipNewlines ts) = true := by
  cases ts with
  | nil => rfl
  | cons t ts =>
    rw [skipNewlines]
    rcases h with h | h
    · rw [if_neg (by simp [kind_of_startsAssignment h])]
      simp [endsValue, h]
    · simp only [stopsValue, Bool.or_eq_true, Bool.and_eq_true, decide_eq_true_eq] at h
      rcases h with h | h
      · rw [if_neg (by simp [h])]
        simp [endsValue, h]
      · rw [if_pos h.1]
        exact h.2

theorem EndsSolid.cons {t : Token} {ts : List Token} (h : EndsSolid ts)
    (ht : ts = [] → t.kind ≠ .newline) : EndsSolid (t :: ts) := by
  intro u hu
  cases ts with
  | nil =>
    obtain rfl := Option.some.inj hu
    exact ht rfl
  | cons v vs => exact h u (by rwa [getLast?_cons_of_ne_nil (cons_ne_nil _ _)] at hu)

/-- One more token in front of what a value goes on over. -/
theorem ValueRead.cons (h : ValueRead ts r)
    (hs : t.kind ≠ .semicolon) (hc : t.kind ≠ .comment) (ha : startsAssignment (t :: ts) = false)
    (hn : t.kind = .newline → endsValue (skipNewlines ts) = false) :
    ValueRead (t :: ts) (valueTokens [t] ++ r.1, r.2) := by
  have e (used : List Token) : valueTokens [t] ++ valueTokens used = valueTokens (t :: used) := by
    rw [valueTokens, valueTokens, ← filter_append]
    rfl
  cases h with
  | @semicolon used rest s run stop =>
    rw [e, ← cons_append]
    exact .semicolon ⟨hs, hc, ha, run⟩ stop
  | @nextProperty used rest run last stop =>
    rw [e, ← cons_append]
    refine .nextProperty ⟨hs, hc, ha, run⟩ (last.cons fun hu ht => ?_) stop
    have := hn ht
    rw [hu, nil_append, endsValue_of_stop (Or.inl stop)] at this
    exact absurd this (by decide)
  | @loose used rest run last stop =>
    rw [e, ← cons_append]
    refine .loose ⟨hs, hc, ha, run⟩ (last.cons fun hu ht => ?_) stop
    have := hn ht
    rw [hu, nil_append, endsValue_of_stop (Or.inr stop)] at this
    exact absurd this (by decide)

theorem valueRead_readValue (ts : List Token) : ValueRead ts (readValue ts) := by
  induction ts with
  | nil =>
    rw [readValue]
    exact ValueRead.loose (runs_nil _) endsSolid_nil rfl
  | cons t ts ih =>
    by_cases hs : t.kind = .semicolon
    · rw [readValue, if_pos hs]
      exact ValueRead.semicolon (runs_nil _) hs
    by_cases hc : t.kind = .comment
    · rw [readValue, if_neg hs, if_pos hc]
      exact ValueRead.loose (runs_nil _) endsSolid_nil (by simp [stopsValue, hc])
    by_cases hn : t.kind = .newline
    · by_cases he : endsValue (skipNewlines ts) = true
      · rw [readValue, if_neg hs, if_neg hc, if_pos hn, if_pos he]
        exact ValueRead.loose (runs_nil _) endsSolid_nil (by simp [stopsValue, hn, he])
      · rw [Bool.not_eq_true] at he
        have := ih.cons hs hc (startsAssignment_of_ne (by simp [hn]) ts) fun _ => he
        rw [readValue_newline hn he]
        simpa [valueTokens, hn] using this
    by_cases ha : startsAssignment (t :: ts) = true
    · rw [readValue, if_neg hs, if_neg hc, if_neg hn, if_pos ha]
      exact ValueRead.nextProperty (runs_nil _) endsSolid_nil ha
    · have := ih.cons hs hc (by simpa using ha) fun h => absurd h hn
      rw [readValue, if_neg hs, if_neg hc, if_neg ha]
      simpa [valueTokens, hn] using this

/-- Line breaks among the tokens that a value goes on over do not end it. -/
theorem Runs.endsValue_eq_false {used : List Token} (run : Runs used rest) (ht : t.kind = .newline)
    (h : EndsSolid (t :: used) ∨ endsValue (skipNewlines rest) = false) :
    endsValue (skipNewlines (used ++ rest)) = false := by
  induction used generalizing t with
  | nil =>
    rcases h with h | h
    · exact absurd ht (h t rfl)
    · exact h
  | cons u us ih =>
    rw [cons_append, skipNewlines]
    split
    · next hu =>
      refine ih run.2.2.2 hu (h.imp_left fun h => ?_)
      intro v hv
      exact h v (by rwa [getLast?_cons_of_ne_nil (cons_ne_nil _ _)])
    · simp [endsValue, run.2.1, run.2.2.1]

/-- A value reader passes over what it goes on over. -/
theorem readValue_append {used : List Token} (run : Runs used rest)
    (h : EndsSolid used ∨ endsValue (skipNewlines rest) = false) :
    readValue (used ++ rest) = (valueTokens used ++ (readValue rest).1, (readValue rest).2) := by
  induction used with
  | nil => rfl
  | cons t ts ih =>
    obtain ⟨hs, hc, ha, run⟩ := run
    have h' : EndsSolid ts ∨ endsValue (skipNewlines rest) = false := by
      refine h.imp_left fun h u hu => h u ?_
      rw [getLast?_cons_of_ne_nil, hu]
      rintro rfl
      simp at hu
    by_cases hn : t.kind = .newline
    · rw [cons_append, readValue_newline hn (run.endsValue_eq_false hn h), ih run h']
      simp [valueTokens, hn]
    · rw [cons_append, readValue, if_neg hs, if_neg hc, if_neg hn, if_neg (by simp [ha]), ih run h']
      simp [valueTokens, hn]

theorem readValue_of_valueRead (h : ValueRead ts r) :
    readValue ts = r := by
  cases h with
  | @semicolon used rest s run stop =>
    have he : endsValue (skipNewlines (s :: rest)) = false := by
      rw [skipNewlines]
      simp [endsValue, stop, startsAssignment_of_ne]
    rw [readValue_append run (Or.inr he), readValue, if_pos stop, append_nil]
  | @nextProperty used rest run last stop =>
    have e : readValue rest = ([], .nextProperty, rest) := by
      cases rest with
      | nil => simp [startsAssignment] at stop
      | cons t ts =>
        rw [readValue]
        simp [kind_of_startsAssignment stop, stop]
    rw [readValue_append run (Or.inl last), e, append_nil]
  | @loose used rest run last stop =>
    have e : readValue rest = ([], .loose, rest) := by
      cases rest with
      | nil => rw [readValue]
      | cons t ts =>
        simp only [stopsValue, Bool.or_eq_true, Bool.and_eq_true, decide_eq_true_eq] at stop
        rw [readValue]
        rcases stop with h | h
        · simp [h]
        · simp [h.1, h.2]
    rw [readValue_append run (Or.inl last), e, append_nil]

/-- Reading a value gives exactly what `ValueRead` says. -/
theorem readValue_eq_iff : readValue ts = r ↔ ValueRead ts r := by
  constructor
  · rintro rfl
    exact valueRead_readValue ts
  · exact readValue_of_valueRead

/-- A value consists of tokens that it goes on over. -/
theorem ValueRead.exists_used (h : ValueRead ts (value, ending, rest)) :
    ∃ used more, ts = used ++ more ∧ value = valueTokens used ∧ Runs used more := by
  cases h with
  | semicolon run => exact ⟨_, _, rfl, rfl, run⟩
  | nextProperty run => exact ⟨_, _, rfl, rfl, run⟩
  | loose run => exact ⟨_, _, rfl, rfl, run⟩

theorem ValueRead.suffix (h : ValueRead ts r) : r.2.2 <:+ ts := by
  cases h with
  | semicolon => exact (suffix_cons _ _).trans (suffix_append _ _)
  | nextProperty => exact suffix_append _ _
  | loose => exact suffix_append _ _

theorem readValue_suffix (ts : List Token) : (readValue ts).2.2 <:+ ts :=
  (valueRead_readValue ts).suffix

/-! ## Statements -/

/-- Tokens that stand between statements. -/
def Token.Separates (t : Token) : Prop :=
  t.kind = .newline ∨ t.kind = .comment ∨ t.kind = .semicolon

theorem readStatements_separator (h : t.Separates) (ts : List Token) :
    readStatements (t :: ts) = readStatements ts := by
  have : (decide (t.kind = .newline) || decide (t.kind = .comment) ||
      decide (t.kind = .semicolon)) = true := by
    rcases h with h | h | h <;> simp [h]
  cases ts with
  | nil => rw [readStatements.eq_2, if_pos this]
  | cons => rw [readStatements, if_pos this]

theorem readStatements_assignment {equals : Token} (hk : key.kind = .identifier)
    (he : equals.kind = .equals) (vs : List Token) :
    readStatements (key :: equals :: vs) =
      .assignment key equals (readValue vs).1 (readValue vs).2.1
          (semicolonDue (readValue vs).2.2) ::
        readStatements (readValue vs).2.2 := by
  rw [readStatements]
  simp [hk, he]

theorem readStatements_bareName (hk : key.kind = .identifier)
    (h : startsAssignment (key :: ts) = false) :
    readStatements (key :: ts) = .bareName key :: readStatements (skipProperty ts) := by
  cases ts with
  | nil => simp [readStatements, hk, skipProperty]
  | cons e vs =>
    have he : e.kind ≠ .equals := by simpa [startsAssignment, hk] using h
    rw [readStatements]
    simp [hk, he]

theorem readStatements_stray (h : ¬ t.Separates) (hk : t.kind ≠ .identifier) (ts : List Token) :
    readStatements (t :: ts) = .stray t :: readStatements (skipProperty ts) := by
  simp only [Token.Separates, not_or] at h
  cases ts <;> rw [readStatements] <;> simp [h, hk]

/-- Statements are read one after the other. -/
theorem readStatements_induction {motive : List Token → Prop} (nil : motive [])
    (separator : ∀ t ts, t.Separates → motive ts → motive (t :: ts))
    (assignment : ∀ key equals vs, key.kind = .identifier → equals.kind = .equals →
      motive (readValue vs).2.2 → motive (key :: equals :: vs))
    (bareName : ∀ key ts, key.kind = .identifier → startsAssignment (key :: ts) = false →
      motive (skipProperty ts) → motive (key :: ts))
    (stray : ∀ t ts, ¬ t.Separates → t.kind ≠ .identifier → motive (skipProperty ts) →
      motive (t :: ts)) (ts : List Token) : motive ts := by
  fun_induction readStatements ts with
  | case1 => exact nil
  | case2 t ts h ih =>
    refine separator t ts ?_ ih
    simpa [Token.Separates, or_assoc] using h
  | case3 t h hk =>
    refine bareName t [] hk rfl ?_
    exact nil
  | case4 t h hk e vs he more ih => exact assignment t e vs hk he ih
  | case5 t h hk e vs he ih => exact bareName t (e :: vs) hk (by simp [startsAssignment, he]) ih
  | case6 t ts h hk ih =>
    refine stray t ts ?_ hk ih
    simpa [Token.Separates, or_assoc] using h

/-- Every assignment of a body is one `key =` in it and the value that follows. -/
theorem mem_readStatements {equals : Token} {due : Bool}
    (h : .assignment key equals value ending due ∈ readStatements ts) :
    key.kind = .identifier ∧ equals.kind = .equals ∧ ∃ vs rest, key :: equals :: vs <:+ ts ∧
      ValueRead vs (value, ending, rest) ∧ due = semicolonDue rest := by
  induction ts using readStatements_induction with
  | nil => simp [readStatements] at h
  | separator t ts ht ih =>
    rw [readStatements_separator ht] at h
    obtain ⟨hk, he, vs, rest, hs, hv⟩ := ih h
    exact ⟨hk, he, vs, rest, hs.trans (suffix_cons t ts), hv⟩
  | assignment t e vs hk he ih =>
    rw [readStatements_assignment hk he] at h
    rcases mem_cons.1 h with h | h
    · obtain ⟨rfl, rfl, rfl, rfl, rfl⟩ := Statement.assignment.inj h
      exact ⟨hk, he, vs, _, suffix_refl _, valueRead_readValue vs, rfl⟩
    · obtain ⟨hk, he, us, rest, hs, hv⟩ := ih h
      refine ⟨hk, he, us, rest, ?_, hv⟩
      exact hs.trans ((readValue_suffix vs).trans
        ((suffix_cons e vs).trans (suffix_cons t _)))
  | bareName t ts ht ha ih =>
    rw [readStatements_bareName ht ha] at h
    obtain ⟨hk, he, us, rest, hs, hv⟩ := ih (by simpa using h)
    exact ⟨hk, he, us, rest, hs.trans ((skipProperty_suffix _).trans (suffix_cons t _)), hv⟩
  | stray t ts ht hk ih =>
    rw [readStatements_stray ht hk] at h
    obtain ⟨hk, he, us, rest, hs, hv⟩ := ih (by simpa using h)
    exact ⟨hk, he, us, rest, hs.trans ((skipProperty_suffix _).trans (suffix_cons t _)), hv⟩

/-! ## What is kept of the tokens -/

/-- The blocks that tokens are read into. -/
def blocksOf (ts : List Token) : List Block :=
  (splitSections ts).2.map Section.toBlock

/-- An assignment stands among the tokens with those that its value is read from. -/
theorem exists_assignment {b : Block} (hb : b ∈ blocksOf ts) {equals : Token} {due : Bool}
    (h : .assignment key equals value ending due ∈ b.statements) :
    key.kind = .identifier ∧ equals.kind = .equals ∧ ∃ us vs after rest,
      ts = us ++ key :: equals :: (vs ++ after) ∧ Inner vs ∧ SectionEnds after ∧
      ValueRead vs (value, ending, rest) := by
  obtain ⟨s, hs, rfl⟩ := mem_map.1 hb
  obtain ⟨before, after, e, ends⟩ := mem_splitSections hs
  obtain ⟨hk, he, vs, rest, suffix, read, -⟩ := mem_readStatements h
  obtain ⟨front, ef⟩ := suffix.trans (readHeading_suffix s.tokens)
  have inner := ((inner_splitSections _).2 s hs).2
  rw [← ef] at e inner
  refine ⟨hk, he, before ++ s.opening :: front, vs, after, rest, by simp [e], ?_, ends, read⟩
  exact fun t ht => inner t (by simp [ht])

/-- The tokens that a statement is made of. -/
def Statement.tokens : Statement → List Token
  | .assignment key equals value _ _ => key :: equals :: value
  | .bareName key => [key]
  | .stray token => [token]

def Heading.tokens : Heading → List Token
  | .named name _ => [name]
  | .unnamed => []

/-- The tokens that a block is made of. -/
def Block.tokens (b : Block) : List Token :=
  b.opening :: (b.heading.tokens ++ b.statements.flatMap Statement.tokens)

theorem ValueRead.sublist (h : ValueRead ts r) : (r.1 ++ r.2.2).Sublist ts := by
  cases h with
  | semicolon =>
    exact filter_sublist.append (sublist_cons_self _ _)
  | nextProperty => exact filter_sublist.append (List.Sublist.refl _)
  | loose => exact filter_sublist.append (List.Sublist.refl _)

theorem readStatements_sublist (ts : List Token) :
    ((readStatements ts).flatMap Statement.tokens).Sublist ts := by
  induction ts using readStatements_induction with
  | nil => simp [readStatements]
  | separator t ts ht ih =>
    rw [readStatements_separator ht]
    exact ih.trans (sublist_cons_self t ts)
  | assignment key equals vs hk he ih =>
    rw [readStatements_assignment hk he]
    refine ((List.Sublist.refl _).append ih).trans ?_
    exact ((valueRead_readValue vs).sublist.cons_cons equals).cons_cons key
  | bareName key ts hk ha ih =>
    rw [readStatements_bareName hk ha]
    exact (ih.trans (skipProperty_suffix ts).sublist).cons_cons key
  | stray t ts ht hk ih =>
    rw [readStatements_stray ht hk]
    exact (ih.trans (skipProperty_suffix ts).sublist).cons_cons t

theorem toBlock_sublist (s : Section) : s.toBlock.tokens.Sublist (s.opening :: s.tokens) := by
  apply List.Sublist.cons_cons
  have body := readStatements_sublist (readHeading s.tokens).2
  show ((readHeading s.tokens).1.tokens ++
    (readStatements (readHeading s.tokens).2).flatMap Statement.tokens).Sublist s.tokens
  cases h : (readHeading s.tokens).1 with
  | unnamed => exact body.trans (readHeading_suffix s.tokens).sublist
  | named name closed =>
    obtain ⟨-, tail, e, suffix⟩ := readHeading_named h
    rw [e] at suffix body ⊢
    exact (body.trans suffix.sublist).cons_cons name

/-- What is kept of a file stands in it, in the same order. -/
theorem blocks_sublist (ts : List Token) :
    ((blocksOf ts).flatMap Block.tokens).Sublist ts := by
  obtain ⟨rest, e⟩ := splitSections_append ts
  have blocks := List.Sublist.flatMap_right (splitSections ts).2 fun s _ => toBlock_sublist s
  have whole := (sublist_append_right (splitSections ts).1
    ((splitSections ts).2.flatMap fun s => s.opening :: s.tokens)).trans
    (sublist_append_left _ rest)
  rw [← e] at whole
  rw [blocksOf, flatMap_map]
  exact blocks.trans whole

/-! ## Objects -/

theorem freshKeyFrom_eq (taken : List String) (key : String) (tries n : Nat) :
    ∃ m, freshKeyFrom taken key tries n = plusKey key m := by
  induction tries generalizing n with
  | zero => exact ⟨n, rfl⟩
  | succ tries ih =>
    rw [freshKeyFrom]
    split
    · exact ih (n + 1)
    · exact ⟨n, rfl⟩

/-- The keys under which properties are stored, beside the keys `taken`. -/
def storedKeys (taken : List String) : List String → List String
  | [] => []
  | key :: keys => freshKey taken key :: storedKeys (taken ++ [freshKey taken key]) keys

/-- Adding properties changes nothing else of an object. -/
theorem foldl_insert (ps : List (String × Property)) (o : Object) :
    ps.foldl (fun o q => o.insert q.1 q.2) o =
      { o with
        properties := o.properties ++ (storedKeys o.keys (ps.map (·.1))).zip (ps.map (·.2)) } := by
  induction ps generalizing o with
  | nil => simp
  | cons q ps ih =>
    have hk : (o.insert q.1 q.2).keys = o.keys ++ [freshKey o.keys q.1] := by
      simp [Object.keys, Object.insert]
    rw [foldl_cons, ih, hk]
    simp [Object.insert, storedKeys]

/-- Every property of an object was put into it, under its key with plus signs. -/
theorem mem_properties_foldl {ps : List (String × Property)} {k : String} {p : Property}
    (h : (k, p) ∈ (ps.foldl (fun o q => o.insert q.1 q.2) o).properties) :
    (k, p) ∈ o.properties ∨ ∃ key n, (key, p) ∈ ps ∧ k = plusKey key n := by
  induction ps generalizing o with
  | nil => exact Or.inl h
  | cons q ps ih =>
    rcases ih h with h | ⟨key, n, h, e⟩
    · rcases mem_append.1 h with h | h
      · exact Or.inl h
      · obtain ⟨rfl, rfl⟩ := Prod.mk.inj (mem_singleton.1 h)
        obtain ⟨n, e⟩ := freshKeyFrom_eq o.keys q.1 o.keys.length 0
        exact Or.inr ⟨q.1, n, mem_cons_self, e⟩
    · exact Or.inr ⟨key, n, mem_cons_of_mem _ h, e⟩

/-- The statement that a property comes from. -/
theorem assignment_of_property? {st : Statement} {k : String} {p : Property}
    (h : st.property? = some (k, p)) :
    ∃ key equals value ending due, st = .assignment key equals value ending due ∧ k = key.text ∧
      p = ⟨String.ofList (joinTokens value), key.lineSpan, valueSpan equals value,
        ending = .semicolon⟩ := by
  cases st with
  | assignment key equals value ending due =>
    obtain ⟨rfl, rfl⟩ := Prod.mk.inj (Option.some.inj h)
    exact ⟨key, equals, value, ending, due, rfl, rfl, rfl⟩
  | bareName key => simp [Statement.property?] at h
  | stray token => simp [Statement.property?] at h

/-- What the object of a block has from it. -/
theorem object?_spec {file : String} {b : Block} (h : b.object? file = some o) :
    ∃ name closed, b.heading = .named name closed ∧ o.typeName = name.text ∧
      o.typeSpan = name.lineSpan ∧ o.file = file ∧
      ∀ k p, (k, p) ∈ o.properties → ∃ st ∈ b.statements, ∃ key n,
        st.property? = some (key, p) ∧ k = plusKey key n := by
  unfold Block.object? at h
  split at h
  · simp at h
  · next name closed hh =>
    obtain rfl := Option.some.inj h
    refine ⟨name, closed, hh, ?_, ?_, ?_, ?_⟩
    · simp [foldl_insert, Object.empty]
    · simp [foldl_insert, Object.empty]
    · simp [foldl_insert, Object.empty]
    · intro k p hp
      rcases mem_properties_foldl hp with h | ⟨key, n, h, rfl⟩
      · simp [Object.empty] at h
      · obtain ⟨st, hst, e⟩ := mem_filterMap.1 h
        exact ⟨st, hst, key, n, e, rfl⟩

/-- An object of a file has its name and its properties from a block. -/
theorem object_origin {source file : String} (ho : o ∈ (Document.parse source file).objects) :
    ∃ b ∈ blocksOf (Token.scan source), ∃ name closed, b.heading = .named name closed ∧
      o.typeName = name.text ∧ o.typeSpan = name.lineSpan ∧ o.file = file ∧
      ∀ k p, (k, p) ∈ o.properties → ∃ st ∈ b.statements, ∃ key n,
        st.property? = some (key, p) ∧ k = plusKey key n := by
  obtain ⟨i, hi, rfl⟩ := mem_mapIdx.1 ho
  obtain ⟨b, hb, e⟩ := mem_filterMap.1 (getElem_mem hi)
  obtain ⟨name, closed, spec⟩ := object?_spec e
  exact ⟨b, hb, name, closed, spec⟩

end ModCheck
