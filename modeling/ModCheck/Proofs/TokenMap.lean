import ModCheck.Proofs.Reading

/-
  What the readers do not look at. They decide by the kinds of tokens only, so that a change to
  the tokens that keeps their kinds goes through to the statements and headings
  (`readStatements_map`, `readHeading_map`). Comments and line breaks are never part of what is
  read, so their texts make no difference (`toBlock_comments`), and a line break at the end of a
  section is not noticed (`toBlock_newline`).
-/

namespace ModCheck

open List

/-! ## Changing the tokens -/

def Statement.map (f : Token → Token) : Statement → Statement
  | .assignment key equals value ending due =>
    .assignment (f key) (f equals) (value.map f) ending due
  | .bareName key => .bareName (f key)
  | .stray token => .stray (f token)

def Heading.map (f : Token → Token) : Heading → Heading
  | .named name closed => .named (f name) closed
  | .unnamed => .unnamed

def Section.map (f : Token → Token) (s : Section) : Section :=
  ⟨f s.opening, s.tokens.map f⟩

def Block.map (f : Token → Token) (b : Block) : Block :=
  ⟨f b.opening, b.heading.map f, b.statements.map (Statement.map f)⟩

section

variable {f : Token → Token} (hf : ∀ t, (f t).kind = t.kind) (ts : List Token)
include hf

theorem splitSections_map :
    splitSections (ts.map f) =
      ((splitSections ts).1.map f, (splitSections ts).2.map (Section.map f)) := by
  induction ts with
  | nil => rfl
  | cons t ts ih =>
    rw [map_cons, splitSections, splitSections, hf]
    split
    · rfl
    · rw [ih]
      split <;> rfl

theorem afterBracket?_map : afterBracket? (ts.map f) = (afterBracket? ts).map (List.map f) := by
  induction ts with
  | nil => rfl
  | cons t ts ih =>
    rw [map_cons, afterBracket?, afterBracket?, hf]
    split
    · rfl
    · split
      · rfl
      · exact ih

theorem skipHeading_map : skipHeading (ts.map f) = (skipHeading ts).map f := by
  rw [skipHeading, skipHeading, afterBracket?_map hf]
  cases afterBracket? ts <;> rfl

theorem readHeading_map :
    readHeading (ts.map f) = ((readHeading ts).1.map f, (readHeading ts).2.map f) := by
  fun_cases readHeading ts with
  | case1 => rfl
  | case2 t hk => simp [readHeading, hf, hk, Heading.map]
  | case3 t hk close rest hc => simp [readHeading, hf, hk, hc, Heading.map]
  | case4 t hk close rest hc =>
    have := skipHeading_map hf (close :: rest)
    simp only [map_cons] at this
    simp [readHeading, hf, hk, hc, Heading.map, this]
  | case5 t ts hk =>
    have := skipHeading_map hf (t :: ts)
    cases ts with
    | nil => simpa [readHeading, hf, hk, Heading.map] using this
    | cons => simpa [readHeading, hf, hk, Heading.map] using this

theorem startsAssignment_map : startsAssignment (ts.map f) = startsAssignment ts := by
  match ts with
  | [] => rfl
  | [t] => rfl
  | t :: u :: us => simp [startsAssignment, hf]

theorem skipNewlines_map : skipNewlines (ts.map f) = (skipNewlines ts).map f := by
  induction ts with
  | nil => rfl
  | cons t ts ih =>
    rw [map_cons, skipNewlines, skipNewlines, hf]
    split
    · exact ih
    · rfl

theorem endsValue_map : endsValue (ts.map f) = endsValue ts := by
  cases ts with
  | nil => rfl
  | cons t ts =>
    have := startsAssignment_map hf (t :: ts)
    rw [map_cons] at this
    rw [map_cons, endsValue, endsValue, hf, this]

theorem readValue_map :
    readValue (ts.map f) =
      ((readValue ts).1.map f, (readValue ts).2.1, (readValue ts).2.2.map f) := by
  fun_induction readValue ts with
  | case1 => simp [readValue]
  | case2 t ts hs => simp [readValue, hf, hs]
  | case3 t ts hs hc => simp [readValue, hf, hc]
  | case4 t ts hs hc hn he =>
    simp [readValue, hf, hn, skipNewlines_map hf, endsValue_map hf, he]
  | case5 t ts hs hc hn he ih =>
    rw [map_cons, readValue]
    simp only [hf, hn, skipNewlines_map hf, endsValue_map hf, he, if_true, if_false, ih,
      reduceCtorEq]
  | case6 t ts hs hc hn ha =>
    have := startsAssignment_map hf (t :: ts)
    rw [map_cons, ha] at this
    simp [readValue, hf, hs, hc, hn, this]
  | case7 t ts hs hc hn ha more ih =>
    have := startsAssignment_map hf (t :: ts)
    rw [map_cons] at this
    rw [map_cons, readValue]
    simp [hf, hs, hc, hn, this, ha, ih, more]

theorem semicolonDue_map : semicolonDue (ts.map f) = semicolonDue ts := by
  induction ts with
  | nil => rfl
  | cons t ts ih =>
    have := startsAssignment_map hf (t :: ts)
    rw [map_cons] at this
    rw [map_cons, semicolonDue, semicolonDue, hf, ih, this]

theorem skipProperty_map : skipProperty (ts.map f) = (skipProperty ts).map f := by
  induction ts with
  | nil => rfl
  | cons t ts ih =>
    rw [map_cons, skipProperty, skipProperty, hf]
    split
    · rfl
    · split
      · rfl
      · exact ih

theorem readStatements_map :
    readStatements (ts.map f) = (readStatements ts).map (Statement.map f) := by
  induction ts using readStatements_induction with
  | nil => simp [readStatements]
  | separator t ts ht ih =>
    have ht' : (f t).Separates := by rwa [Token.Separates, hf]
    rw [map_cons, readStatements_separator ht', readStatements_separator ht, ih]
  | assignment key equals vs hk he ih =>
    rw [map_cons, map_cons, readStatements_assignment ((hf key).trans hk)
      ((hf equals).trans he), readStatements_assignment hk he, readValue_map hf]
    rw [semicolonDue_map hf, ih]
    rfl
  | bareName key ts hk ha ih =>
    have ha' : startsAssignment (f key :: ts.map f) = false := by
      rw [← map_cons, startsAssignment_map hf, ha]
    rw [map_cons, readStatements_bareName ((hf key).trans hk) ha',
      readStatements_bareName hk ha, skipProperty_map hf, ih]
    rfl
  | stray t ts ht hk ih =>
    have ht' : ¬ (f t).Separates := by rwa [Token.Separates, hf]
    rw [map_cons, readStatements_stray ht' (by rwa [hf]), readStatements_stray ht hk,
      skipProperty_map hf, ih]
    rfl

theorem toBlock_map (s : Section) : (s.map f).toBlock = s.toBlock.map f := by
  rw [Section.toBlock, Section.map, readHeading_map hf]
  rw [readStatements_map hf]
  rfl

theorem blocksOf_map : blocksOf (ts.map f) = (blocksOf ts).map (Block.map f) := by
  rw [blocksOf, blocksOf, splitSections_map hf, map_map, map_map]
  congr 1
  funext s
  exact toBlock_map hf s

end

/-! ## Values -/

section

variable {f : Token → Token} {n : Nat} (hline : ∀ t, (f t).line = t.line + n)
  (hlead : ∀ t, (f t).lead = t.lead) (htext : ∀ t, (f t).text = t.text)
include hline hlead htext

theorem joinTokensFrom_map (line : Nat) (ts : List Token) :
    joinTokensFrom (line + n) (ts.map f) = joinTokensFrom line ts := by
  induction ts generalizing line with
  | nil => rfl
  | cons t ts ih =>
    rw [map_cons, joinTokensFrom, joinTokensFrom, hline, hlead, htext, ih,
      show t.line + n - (line + n) = t.line - line by omega]

/-- The text of a value depends on the texts of its tokens and the lines between them. -/
theorem joinTokens_map (ts : List Token) : joinTokens (ts.map f) = joinTokens ts := by
  cases ts with
  | nil => rfl
  | cons t ts =>
    rw [map_cons, joinTokens, joinTokens, hline, htext, joinTokensFrom_map hline hlead htext]

end

/-! ## Comments -/

theorem Runs.kind_ne {used rest : List Token} (run : Runs used rest) {t : Token} (ht : t ∈ used) :
    t.kind ≠ .comment ∧ t.kind ≠ .semicolon := by
  induction used with
  | nil => simp at ht
  | cons u us ih =>
    rcases mem_cons.1 ht with rfl | ht
    · exact ⟨run.2.1, run.1⟩
    · exact ih run.2.2.2 ht

theorem ValueRead.kind_ne {ts : List Token} {r : List Token × ValueClose × List Token}
    (h : ValueRead ts r) {t : Token} (ht : t ∈ r.1) : ¬ t.Separates := by
  have key {used rest : List Token} (run : Runs used rest) (ht : t ∈ valueTokens used) :
      ¬ t.Separates := by
    obtain ⟨hu, hn⟩ := mem_filter.1 ht
    obtain ⟨hc, hs⟩ := run.kind_ne hu
    rintro (h | h | h)
    · simp [h] at hn
    · exact hc h
    · exact hs h
  cases h with
  | semicolon run => exact key run ht
  | nextProperty run => exact key run ht
  | loose run => exact key run ht

/-- No statement holds a line break, a comment or a semicolon. -/
theorem readStatements_tokens {ts : List Token} {st : Statement} (h : st ∈ readStatements ts)
    {t : Token} (ht : t ∈ st.tokens) : ¬ t.Separates := by
  have other {t : Token} {kind : TokenKind} (hk : t.kind = kind)
      (h : kind ≠ .newline ∧ kind ≠ .comment ∧ kind ≠ .semicolon) : ¬ t.Separates := by
    rintro (e | e | e)
    · exact h.1 (hk.symm.trans e)
    · exact h.2.1 (hk.symm.trans e)
    · exact h.2.2 (hk.symm.trans e)
  induction ts using readStatements_induction with
  | nil => simp [readStatements] at h
  | separator u us hu ih =>
    rw [readStatements_separator hu] at h
    exact ih h
  | assignment key equals vs hk he ih =>
    rw [readStatements_assignment hk he] at h
    rcases mem_cons.1 h with rfl | h
    · rcases mem_cons.1 ht with rfl | ht
      · exact other hk (by decide)
      · rcases mem_cons.1 ht with rfl | ht
        · exact other he (by decide)
        · exact (valueRead_readValue vs).kind_ne ht
    · exact ih h
  | bareName key us hk ha ih =>
    rw [readStatements_bareName hk ha] at h
    rcases mem_cons.1 h with rfl | h
    · obtain rfl := mem_singleton.1 ht
      exact other hk (by decide)
    · exact ih h
  | stray u us hu hk ih =>
    rw [readStatements_stray hu hk] at h
    rcases mem_cons.1 h with rfl | h
    · obtain rfl := mem_singleton.1 ht
      exact hu
    · exact ih h

theorem Statement.map_of_fixed {f : Token → Token} {st : Statement}
    (h : ∀ t ∈ st.tokens, f t = t) : st.map f = st := by
  cases st with
  | assignment key equals value ending due =>
    have hv : value.map f = value := by
      calc value.map f = value.map id :=
            map_congr_left fun t ht => h t (by simp [Statement.tokens, ht])
        _ = value := map_id value
    simp [Statement.map, h key (by simp [Statement.tokens]), h equals (by simp [Statement.tokens]),
      hv]
  | bareName key => simp [Statement.map, h key (by simp [Statement.tokens])]
  | stray token => simp [Statement.map, h token (by simp [Statement.tokens])]

/-- A change to comments only is not seen in what is read. -/
theorem toBlock_comments {f : Token → Token} (hf : ∀ t, (f t).kind = t.kind)
    (fixed : ∀ t, t.kind ≠ .comment → f t = t) {s : Section} (hs : s.opening.kind = .leftBracket) :
    (s.map f).toBlock = s.toBlock := by
  have hh : s.toBlock.heading.map f = s.toBlock.heading := by
    cases h : s.toBlock.heading with
    | unnamed => rfl
    | named name closed =>
      have := (readHeading_named h).1
      rw [Heading.map, fixed name (by simp [this])]
  have fixed' {st : Statement} (h : st ∈ s.toBlock.statements) : st.map f = st :=
    Statement.map_of_fixed fun t ht => fixed t fun e =>
      readStatements_tokens h ht (Or.inr (Or.inl e))
  have hst : s.toBlock.statements.map (Statement.map f) = s.toBlock.statements := by
    calc s.toBlock.statements.map (Statement.map f) = s.toBlock.statements.map id :=
          map_congr_left fun st h => fixed' h
      _ = s.toBlock.statements := map_id _
  have ho : f s.toBlock.opening = s.toBlock.opening := fixed s.opening (by simp [hs])
  rw [toBlock_map hf, Block.map, hh, hst, ho]

/-! ## A line break at the end -/

section

variable {nl : Token} (hn : nl.kind = .newline) (ts : List Token)
include hn

theorem startsAssignment_append_newline : startsAssignment (ts ++ [nl]) = startsAssignment ts := by
  match ts with
  | [] => rfl
  | [t] => simp [startsAssignment, hn]
  | t :: u :: us => rfl

theorem endsValue_append_newline :
    endsValue (skipNewlines (ts ++ [nl])) = endsValue (skipNewlines ts) := by
  induction ts with
  | nil => simp [skipNewlines, hn]
  | cons t ts ih =>
    rw [cons_append, skipNewlines, skipNewlines]
    split
    · exact ih
    · have := startsAssignment_append_newline hn (t :: ts)
      rw [cons_append] at this
      rw [endsValue, endsValue, this]

theorem Runs.append_newline {used rest : List Token} (h : Runs used rest) :
    Runs used (rest ++ [nl]) := by
  induction used with
  | nil => exact trivial
  | cons t ts ih =>
    obtain ⟨hs, hc, ha, run⟩ := h
    refine ⟨hs, hc, ?_, ih run⟩
    rw [← append_assoc, ← cons_append, startsAssignment_append_newline hn, ha]

theorem readValue_append_newline :
    readValue (ts ++ [nl]) =
      ((readValue ts).1, (readValue ts).2.1, (readValue ts).2.2 ++ [nl]) := by
  apply readValue_of_valueRead
  have h := valueRead_readValue ts
  generalize readValue ts = r at h
  cases h with
  | @semicolon used rest s run stop =>
    rw [append_assoc]
    exact .semicolon (run.append_newline hn) stop
  | @nextProperty used rest run last stop =>
    rw [append_assoc]
    refine .nextProperty (run.append_newline hn) last ?_
    rw [startsAssignment_append_newline hn, stop]
  | @loose used rest run last stop =>
    rw [append_assoc]
    refine .loose (run.append_newline hn) last ?_
    cases rest with
    | nil => simp [stopsValue, hn, skipNewlines, endsValue]
    | cons t ts =>
      rw [cons_append, stopsValue, endsValue_append_newline hn]
      exact stop

theorem semicolonDue_append_newline : semicolonDue (ts ++ [nl]) = semicolonDue ts := by
  induction ts with
  | nil => simp [semicolonDue, hn]
  | cons t ts ih =>
    have := startsAssignment_append_newline hn (t :: ts)
    rw [cons_append] at this
    rw [cons_append, semicolonDue, semicolonDue, ih, this]

theorem skipProperty_append_newline : skipProperty (ts ++ [nl]) = skipProperty ts ++ [nl] := by
  induction ts with
  | nil => simp [skipProperty, hn]
  | cons t ts ih =>
    rw [cons_append, skipProperty, skipProperty]
    split
    · rfl
    · split
      · rfl
      · exact ih

theorem readStatements_append_newline : readStatements (ts ++ [nl]) = readStatements ts := by
  induction ts using readStatements_induction with
  | nil => exact readStatements_separator (Or.inl hn) []
  | separator t ts ht ih =>
    rw [cons_append, readStatements_separator ht, readStatements_separator ht, ih]
  | assignment key equals vs hk he ih =>
    rw [cons_append, cons_append, readStatements_assignment hk he,
      readStatements_assignment hk he, readValue_append_newline hn]
    rw [semicolonDue_append_newline hn, ih]
  | bareName key ts hk ha ih =>
    have ha' : startsAssignment (key :: (ts ++ [nl])) = false := by
      rw [← cons_append, startsAssignment_append_newline hn, ha]
    rw [cons_append, readStatements_bareName hk ha', readStatements_bareName hk ha,
      skipProperty_append_newline hn, ih]
  | stray t ts ht hk ih =>
    rw [cons_append, readStatements_stray ht hk, readStatements_stray ht hk,
      skipProperty_append_newline hn, ih]

theorem skipHeading_append_newline : skipHeading (ts ++ [nl]) = skipHeading ts ++ [nl] := by
  have h : afterBracket? (ts ++ [nl]) = (afterBracket? ts).map (· ++ [nl]) := by
    induction ts with
    | nil => simp [afterBracket?, hn]
    | cons t ts ih =>
      rw [cons_append, afterBracket?, afterBracket?]
      split
      · rfl
      · split
        · rfl
        · exact ih
  rw [skipHeading, skipHeading, h]
  cases afterBracket? ts <;> rfl

theorem readHeading_append_newline :
    readHeading (ts ++ [nl]) = ((readHeading ts).1, (readHeading ts).2 ++ [nl]) := by
  fun_cases readHeading ts with
  | case1 => simp [readHeading, hn, skipHeading, afterBracket?]
  | case2 t hk => simp [readHeading, hk, hn, skipHeading, afterBracket?]
  | case3 t hk close rest hc => simp [readHeading, hk, hc]
  | case4 t hk close rest hc =>
    have := skipHeading_append_newline hn (close :: rest)
    rw [cons_append] at this
    simp [readHeading, hk, hc, this]
  | case5 t ts hk =>
    have := skipHeading_append_newline hn (t :: ts)
    cases ts with
    | nil => simpa [readHeading, hk] using this
    | cons => simpa [readHeading, hk] using this

/-- A line break at the end of a section is not noticed. -/
theorem toBlock_newline (opening : Token) (ts : List Token) :
    (Section.mk opening (ts ++ [nl])).toBlock = (Section.mk opening ts).toBlock := by
  rw [Section.toBlock, Section.toBlock, readHeading_append_newline hn]
  rw [readStatements_append_newline hn]

end

end ModCheck
