import ModCheck.Proofs.LineScan

/-
  Values over several lines. The first line of a value is scanned as one piece and every line below
  it as words. If these lines are plain, a value goes on over all of them (`exists_later_lines`),
  and the words are joined to the lines again (`joinTokensFrom_eq_written`). So an object with one
  such value is read into it whole (`parse_continued_value`).
-/

namespace ModCheck

open List
open Text (isBlank)

variable {ts : List Token}

/-! ## Lines below the first -/

/-- A line that a value goes on over when it stands below the value's first. -/
structure LaterLine (line : List Char) : Prop where
  text : line ≠ []
  value : PlainValue line
  plain : isPlainLine line = true

/-- Tokens of lines that a value goes on over, each line with a line feed before it. -/
structure Continues (us : List Token) : Prop where
  first : ∀ t, us.head? = some t → t.kind = .newline
  last : EndsSolid us
  kinds : ∀ t ∈ us, t.lexeme = .sign .newline '\n' ∨ t.kind.isSolid = true ∧ t.kind ≠ .leftBracket
  runs : ∀ more, (∀ t, more.head? = some t → t.kind ≠ .equals) → Runs us more

theorem Continues.nil : Continues [] :=
  ⟨by simp, endsSolid_nil, by simp, fun more _ => runs_nil more⟩

/-- One line more in front. -/
theorem Continues.cons {nl : Token} {ts us : List Token} (h : Continues us)
    (hnl : nl.lexeme = .sign .newline '\n') (hts : ts ≠ [])
    (kinds : ∀ t ∈ ts, t.kind.isSolid = true ∧ t.kind ≠ .leftBracket)
    (runs : ∀ more, (∀ t, more.head? = some t → t.kind ≠ .equals) → Runs ts more) :
    Continues (nl :: (ts ++ us)) := by
  have hkind : nl.kind = .newline := congrArg Lexeme.kind hnl
  refine ⟨?_, ?_, ?_, fun more hmore => ?_⟩
  · intro t ht
    rw [← Option.some.inj ht]
    exact hkind
  · intro t ht
    rw [getLast?_cons_of_ne_nil (by simp [hts])] at ht
    by_cases hus : us = []
    · rw [hus, append_nil] at ht
      exact (TokenKind.isSolid_iff.1 (kinds t (mem_of_getLast? ht)).1).1
    · rw [getLast?_append_of_ne_nil _ hus] at ht
      exact h.last t ht
  · intro t ht
    rcases mem_cons.1 ht with rfl | ht
    · exact Or.inl hnl
    · rcases mem_append.1 ht with ht | ht
      · exact Or.inr (kinds t ht)
      · exact h.kinds t ht
  · refine ⟨by simp [hkind], by simp [hkind], startsAssignment_of_ne (by simp [hkind]) _,
      runs_append.2 ⟨runs _ fun t ht => ?_, h.runs more hmore⟩⟩
    cases us with
    | nil => exact hmore t ht
    | cons u us =>
      rw [← Option.some.inj ht, h.first u rfl]
      decide

/-- The lines of a value below its first are scanned into tokens that it goes on over. They start
with a line break; without such lines, the semicolon comes next. -/
theorem exists_later_lines {l : Lexeme} {ls : List Lexeme} (rest : Lexed .normal (l :: ls))
    (hl : l.kind = .semicolon) {lines : List (List Char)} (h : ∀ line ∈ lines, LaterLine line) :
    ∃ ms m tail, spell ms = lines.flatMap ('\n' :: ·) ∧
      (∀ us : List Token, us.map Token.lexeme = ms → Continues us) ∧ ms ++ l :: ls = m :: tail ∧
      (m.kind = .newline ∨ m.kind = .semicolon) ∧ Lexed .normal (m :: tail) := by
  induction lines with
  | nil =>
    refine ⟨[], l, ls, rfl, fun us hus => ?_, rfl, Or.inr hl, rest⟩
    rw [map_eq_nil_iff.1 hus]
    exact .nil
  | cons line lines ih =>
    obtain ⟨ms, m, tail, hspell, continues, htail, hm, lexed⟩ :=
      ih fun w hw => h w (mem_cons_of_mem _ hw)
    obtain ⟨text, value, plain⟩ := h line mem_cons_self
    obtain ⟨ws, hwords, lexed', kinds, runs⟩ :=
      exists_plain_line lexed hm value.chars value.last plain value.whole
    refine ⟨.sign .newline '\n' :: (ws ++ ms), .sign .newline '\n', ws ++ m :: tail, ?_,
      fun us hus => ?_, ?_, Or.inl rfl, lexed_sign (by simp) lexed'⟩
    · rw [spell_cons, spell_append, hwords, hspell]
      rfl
    · obtain ⟨nl, us, rfl, hnl, hmore⟩ := map_eq_cons_iff.1 hus
      obtain ⟨ts, us, rfl, hts, hus⟩ := map_eq_append_iff.1 hmore
      refine (continues us hus).cons hnl ?_ (fun t ht => ?_) (runs ts hts)
      · rintro rfl
        rw [← hts] at hwords
        exact text hwords.symm
      · have hmem : t.lexeme ∈ ws := hts ▸ mem_map_of_mem ht
        exact kinds _ hmem
    · rw [cons_append, append_assoc, htail]

/-! ## The lines joined -/

/-- Tokens of a value from line `n` on. -/
def Lined : Nat → List Token → Prop
  | _, [] => True
  | n, t :: ts =>
    t.line = n ∧ (t.kind = .newline ∧ Lined (n + 1) ts ∨ t.kind.isSolid = true ∧ Lined n ts)

theorem lined_of_laid {pre : List Char} (laid : Laid pre ts)
    (hk : ∀ t ∈ ts, t.kind = .newline ∨ t.kind.isSolid = true) :
    Lined (Position.after ⟨1, 0⟩ pre).line ts := by
  induction ts generalizing pre with
  | nil => trivial
  | cons t ts ih =>
    obtain ⟨sane, start, -, laid⟩ := laid
    have hts := ih laid fun u hu => hk u (mem_cons_of_mem _ hu)
    rcases hk t mem_cons_self with hn | hs
    · refine ⟨?_, Or.inl ⟨hn, ?_⟩⟩
      · rw [Token.line, start, Position.after_append, Position.after_of_not_mem _ sane.lead]
      · rwa [line_after_newline sane hn] at hts
    · obtain ⟨hline, eline⟩ := line_after_solid sane start hs
      refine ⟨hline, Or.inr ⟨hs, ?_⟩⟩
      rwa [eline, hline] at hts

theorem Lined.le_line {n : Nat} (h : Lined n ts) {t : Token} (ht : t ∈ ts) : n ≤ t.line := by
  induction ts generalizing n with
  | nil => simp at ht
  | cons u ts ih =>
    obtain ⟨hline, h⟩ := h
    rcases mem_cons.1 ht with rfl | ht
    · exact Nat.le_of_eq hline.symm
    · rcases h with ⟨-, h⟩ | ⟨-, h⟩
      · exact Nat.le_of_succ_le (ih h ht)
      · exact ih h ht

theorem EndsSolid.valueTokens_ne_nil {t : Token} (h : EndsSolid (t :: ts))
    (ht : t.kind = .newline) : valueTokens ts ≠ [] := by
  have hne : ts ≠ [] := by
    rintro rfl
    exact h t rfl ht
  have hlast := h (ts.getLast hne) (by
    rw [getLast?_cons_of_ne_nil hne, getLast?_eq_some_getLast hne])
  exact ne_nil_of_mem (mem_filter.2 ⟨getLast_mem hne, by simpa using hlast⟩)

/-- Where a line break is only a line feed, the text of a value is what its tokens are written as,
line breaks included. -/
theorem joinTokensFrom_eq_written {n : Nat} (lined : Lined n ts) (hlast : EndsSolid ts)
    (hbreaks : ∀ t ∈ ts, t.kind = .newline → t.lexeme = .sign .newline '\n') :
    joinTokensFrom n (valueTokens ts) = written ts := by
  induction ts generalizing n with
  | nil => rfl
  | cons t ts ih =>
    have hmore : EndsSolid ts := by
      intro u hu
      refine hlast u ?_
      rw [getLast?_cons, hu]
      rfl
    obtain ⟨hline, ⟨hn, lined⟩ | ⟨hs, lined⟩⟩ := lined
    · have hnl := hbreaks t mem_cons_self hn
      rw [joinTokensFrom_break hn (fun u hu => lined.le_line hu) (hlast.valueTokens_ne_nil hn),
        ih lined hmore fun u hu => hbreaks u (mem_cons_of_mem _ hu), written_cons,
        show t.lead.toList = [] from congrArg Lexeme.gap hnl,
        show t.text.toList = ['\n'] from congrArg Lexeme.text hnl]
      rfl
    · rw [joinTokensFrom_text hline hs,
        ih lined hmore fun u hu => hbreaks u (mem_cons_of_mem _ hu), written_cons]

section

variable {us : List Token} (h : Continues us) {v : Token} (hv : v.kind = .value)
include h hv

theorem Continues.solid : ∀ t ∈ v :: us, t.kind = .newline ∨ t.kind.isSolid = true := by
  intro t ht
  rcases mem_cons.1 ht with rfl | ht
  · exact Or.inr (by rw [hv]; rfl)
  · exact (h.kinds t ht).imp (congrArg Lexeme.kind) And.left

theorem Continues.inner : Inner (v :: us) := by
  intro t ht
  rcases mem_cons.1 ht with rfl | ht
  · simp [hv]
  · rcases h.kinds t ht with hn | ⟨hs, hb⟩
    · rw [show t.kind = .newline from congrArg Lexeme.kind hn]
      decide
    · exact ⟨hb, (TokenKind.isSolid_iff.1 hs).2.2⟩

theorem Continues.run {s : Token} (hs : s.kind = .semicolon) : Runs (v :: us) [s] := by
  refine ⟨by simp [hv], by simp [hv], startsAssignment_of_ne (by simp [hv]) _,
    h.runs _ fun t ht => ?_⟩
  rw [← Option.some.inj ht, hs]
  decide

/-- The text of a value whose first line is one token. -/
theorem Continues.join {n : Nat} (lined : Lined n (v :: us)) :
    joinTokens (valueTokens (v :: us)) = v.text.toList ++ written us := by
  obtain ⟨hline, ⟨hn, -⟩ | ⟨-, lined⟩⟩ := lined
  · rw [hv] at hn
    exact absurd hn (by decide)
  have hvalue : valueTokens (v :: us) = v :: valueTokens us := by
    rw [valueTokens, filter_cons_of_pos (by simp [hv])]
    rfl
  have hbreaks : ∀ t ∈ us, t.kind = .newline → t.lexeme = .sign .newline '\n' := by
    intro t ht hn
    exact (h.kinds t ht).resolve_right fun hs => (TokenKind.isSolid_iff.1 hs.1).1 hn
  rw [hvalue, joinTokens, hline, joinTokensFrom_eq_written lined h.last hbreaks]

end

/-! ## An object with one value -/

section

variable {source : String} {opening name close nl key equals semicolon stop : Token}
  {used : List Token}

/-- A heading and one property that a semicolon ends are read into one object. -/
theorem parse_one_value
    (hscan : Token.scan source =
      opening :: (name :: close :: nl :: key :: equals :: (used ++ [semicolon])) ++ [stop])
    (hopening : opening.kind = .leftBracket) (hname : name.kind = .identifier)
    (hclose : close.kind = .rightBracket) (hnl : nl.kind = .newline)
    (hkey : key.kind = .identifier) (hequals : equals.kind = .equals)
    (hsemicolon : semicolon.kind = .semicolon) (hstop : stop.kind = .endOfFile)
    (inner : Inner used) (run : Runs used [semicolon]) (file : String) :
    Document.parse source file = ⟨[{
      typeName := name.text
      file := file
      properties := [(key.text, ⟨String.ofList (joinTokens (valueTokens used)), key.lineSpan,
        valueSpan equals (valueTokens used), true⟩)]
      startLine := opening.line
      endLine := max name.line (max key.line (valueSpan equals (valueTokens used)).stop.line)
      typeSpan := name.lineSpan }], []⟩ := by
  have hinner : Inner (name :: close :: nl :: key :: equals :: (used ++ [semicolon])) := by
    intro t ht
    simp only [mem_cons, mem_append, not_mem_nil, or_false] at ht
    rcases ht with rfl | rfl | rfl | rfl | rfl | ht | rfl
    · simp [hname]
    · simp [hclose]
    · simp [hnl]
    · simp [hkey]
    · simp [hequals]
    · exact inner t ht
    · simp [hsemicolon]
  have hsections : splitSections (Token.scan source) =
      ([], [⟨opening, name :: close :: nl :: key :: equals :: (used ++ [semicolon])⟩]) := by
    rw [hscan, cons_append, splitSections, if_neg (by simp [hopening]), if_pos hopening,
      splitSections_inner hinner]
    simp [splitSections, hstop]
  have hvalue : readValue (used ++ [semicolon]) = (valueTokens used, .semicolon, []) :=
    readValue_eq_iff.2 (.semicolon run hsemicolon)
  have hblock : Section.toBlock
      ⟨opening, name :: close :: nl :: key :: equals :: (used ++ [semicolon])⟩ =
        ⟨opening, .named name true,
          [.assignment key equals (valueTokens used) .semicolon (semicolonDue [])]⟩ := by
    simp only [Section.toBlock, readHeading, hname, hclose, if_true]
    rw [readStatements_separator (Or.inl hnl), readStatements_assignment hkey hequals, hvalue,
      readStatements]
  rw [Document.parse, hsections]
  simp [hblock, Block.object?, Block.messages, Block.headingMessages, Statement.property?,
    Statement.lastLine, Statement.messages, Object.empty, Object.insert, freshKey, freshKeyFrom,
    plusKey, linkNeighbours, strayMessages, Object.keys, Token.lineSpan, Token.line]

end

/-- The lexemes of a heading, a key and the first line of its value. -/
theorem lexed_first_line {typeName key line : List Char} (htype : IsName typeName)
    (hkey : IsName key) (hne : line ≠ []) (hvalue : PlainValue line) {l : Lexeme}
    {ls : List Lexeme} (rest : Lexed .normal (l :: ls))
    (hl : l.kind = .newline ∨ l.kind = .semicolon) :
    Lexed .normal (.sign .leftBracket '[' :: ⟨[], .identifier, typeName⟩ ::
      .sign .rightBracket ']' :: .sign .newline '\n' :: ⟨[], .identifier, key⟩ ::
      .sign .equals '=' :: ⟨[], .value, line⟩ :: l :: ls) := by
  obtain ⟨c, cs, rfl⟩ := exists_cons_of_ne_nil hne
  have value : Lexed .inValue (⟨[], .value, c :: cs⟩ :: l :: ls) :=
    .cons ⟨splitGap_of_not_isBlank (hvalue.first c rfl) cs, hvalue.isValue, by simp⟩
      (rest.closes hl).2 rest
  have equals : Lexed .normal (.sign .equals '=' :: ⟨[], .value, c :: cs⟩ :: l :: ls) :=
    lexed_sign (by simp) value
  have property := lexed_name hkey equals (isWordChar_eq_false (c := '=') (by simp))
  have close : Lexed .normal (.sign .rightBracket ']' :: .sign .newline '\n' ::
      ⟨[], .identifier, key⟩ :: .sign .equals '=' :: ⟨[], .value, c :: cs⟩ :: l :: ls) :=
    lexed_sign (by simp) (lexed_sign (by simp) property)
  exact lexed_sign (by simp) (lexed_name htype close (isWordChar_eq_false (c := ']') (by simp)))

theorem toList_intercalate_lines (first : String) (more : List String) :
    ("\n".intercalate (first :: more)).toList =
      first.toList ++ (more.map String.toList).flatMap ('\n' :: ·) := by
  induction more generalizing first with
  | nil => simp
  | cons line more ih =>
    rw [String.intercalate_cons_cons, String.toList_append, ih]
    simp

/-- An object with one value over several lines. The first line may be any text that stays whole
behind an equals sign; on the lines below, no comment and no other property may start either. The
value is the lines as they are written. -/
theorem parse_continued_value (typeName key first : String) (more : List String) (file : String)
    (htype : IsName typeName.toList) (hkey : IsName key.toList)
    (hlines : ∀ line ∈ first :: more, line ≠ "" ∧ PlainValue line.toList)
    (hplain : ∀ line ∈ more, isPlainLine line.toList = true) :
    ∃ o p, Document.parse ("[" ++ typeName ++ "]\n" ++ key ++ "=" ++
        "\n".intercalate (first :: more) ++ ";") file = ⟨[o], []⟩ ∧
      o.typeName = typeName ∧ o.properties = [(key, p)] ∧
      p.value = "\n".intercalate (first :: more) ∧ p.terminated = true := by
  generalize hsource : "[" ++ typeName ++ "]\n" ++ key ++ "=" ++
    "\n".intercalate (first :: more) ++ ";" = source
  obtain ⟨htext, hvalue⟩ := hlines first mem_cons_self
  have hlater : ∀ line ∈ more.map String.toList, LaterLine line := by
    intro line hline
    obtain ⟨w, hw, rfl⟩ := mem_map.1 hline
    obtain ⟨hne, hv⟩ := hlines w (mem_cons_of_mem _ hw)
    exact ⟨by simpa using hne, hv, hplain w hw⟩
  -- the lexemes, from the end of the file to its start
  have hclosing : Lexed .normal [.sign .semicolon ';', ⟨[], .endOfFile, []⟩] :=
    lexed_sign (by simp) (.stop rfl)
  obtain ⟨ms, m, tail, hspell, continues, htail, hm, lexed⟩ :=
    exists_later_lines hclosing rfl hlater
  have hne : first.toList ≠ [] := by simpa using htext
  have hlexed := lexed_first_line htype hkey hne hvalue lexed hm
  rw [← htail] at hlexed
  have hscan : (Token.scan source).map Token.lexeme = .sign .leftBracket '[' ::
      ⟨[], .identifier, typeName.toList⟩ :: .sign .rightBracket ']' :: .sign .newline '\n' ::
      ⟨[], .identifier, key.toList⟩ :: .sign .equals '=' :: ⟨[], .value, first.toList⟩ ::
      (ms ++ [.sign .semicolon ';', ⟨[], .endOfFile, []⟩]) := by
    rw [← lexemes_of_lexed hlexed, Token.scan, map_lexeme_placeLexemes]
    congr 1
    rw [← hsource]
    simp only [String.toList_append, toList_intercalate_lines, spell_cons, spell_append, hspell]
    simp [Lexeme.sign]
  -- its tokens
  simp only [map_eq_cons_iff, map_eq_append_iff, map_eq_nil_iff] at hscan
  obtain ⟨opening, _, hall, hopening, name, _, rfl, hname, close, _, rfl, hclose, nl, _, rfl, hnl,
    k, _, rfl, hk, equals, _, rfl, hequals, v, _, rfl, hv, us, _, rfl, hus, semicolon, _, rfl,
    hsemicolon, stop, _, rfl, hstop, rfl⟩ := hscan
  have hvkind : v.kind = .value := congrArg Lexeme.kind hv
  have hskind : semicolon.kind = .semicolon := congrArg Lexeme.kind hsemicolon
  have continues := continues us hus
  have hcut : opening :: name :: close :: nl :: k :: equals :: v :: (us ++ [semicolon, stop]) =
      [opening, name, close, nl, k, equals] ++ (v :: us ++ [semicolon, stop]) := rfl
  have hjoin : joinTokens (valueTokens (v :: us)) = ("\n".intercalate (first :: more)).toList := by
    have laid := laid_scan source
    rw [hall, hcut, laid_append, laid_append] at laid
    rw [continues.join hvkind (lined_of_laid laid.2.1 (continues.solid hvkind)),
      ← spell_map_lexeme, hus, hspell, toList_intercalate_lines]
    exact congrArg (· ++ _) (congrArg Lexeme.text hv)
  have hparse := parse_one_value (hall.trans (by simp)) (congrArg Lexeme.kind hopening)
    (congrArg Lexeme.kind hname) (congrArg Lexeme.kind hclose) (congrArg Lexeme.kind hnl)
    (congrArg Lexeme.kind hk) (congrArg Lexeme.kind hequals) hskind (congrArg Lexeme.kind hstop)
    (continues.inner hvkind) (continues.run hvkind hskind) file
  rw [hjoin, String.ofList_toList] at hparse
  have htypeText : name.text = typeName := String.toList_injective (congrArg Lexeme.text hname)
  have hkeyText : k.text = key := String.toList_injective (congrArg Lexeme.text hk)
  rw [htypeText, hkeyText] at hparse
  exact ⟨_, _, hparse, rfl, rfl, rfl, rfl⟩

/-- Dashes, brackets and equals signs on later lines. -/
theorem parse_continued_value_signs :
    (∀ line ∈ ["k=1 -- 2]", "-1 ]] a- b<c= --d e]"], line ≠ "" ∧ PlainValue line.toList) ∧
      isPlainLine "-1 ]] a- b<c= --d e]".toList = true ∧
      ∃ o p, Document.parse ("[" ++ "T" ++ "]\n" ++ "!key" ++ "=" ++
          "\n".intercalate ["k=1 -- 2]", "-1 ]] a- b<c= --d e]"] ++ ";") "f" = ⟨[o], []⟩ ∧
        o.typeName = "T" ∧ o.properties = [("!key", p)] ∧
        p.value = "\n".intercalate ["k=1 -- 2]", "-1 ]] a- b<c= --d e]"] ∧
        p.terminated = true := by
  have hlines : ∀ line ∈ ["k=1 -- 2]", "-1 ]] a- b<c= --d e]"],
      line ≠ "" ∧ PlainValue line.toList := by decide +kernel
  have hplain : isPlainLine "-1 ]] a- b<c= --d e]".toList = true := by decide +kernel
  exact ⟨hlines, hplain, parse_continued_value "T" "!key" _ _ "f" (by decide) (by decide) hlines
    (by simpa using hplain)⟩

/-- A later line of a value is not read like the first: two hyphens start a comment, also inside a
word, and a key right behind a bracket starts the next property, without a message. -/
theorem parse_later_line_ends_value :
    let text (lines : List String) :=
      "[" ++ "T" ++ "]\n" ++ "k" ++ "=" ++ "\n".intercalate lines ++ ";"
    let properties (lines : List String) :=
      (Document.parse (text lines) "f").objects.map fun o => o.properties.map fun q =>
        (q.1, q.2.value)
    IsName "T".toList ∧ IsName "k".toList ∧
      (∀ line ∈ ["a", "b--c", "a]b=1"], line ≠ "" ∧ PlainValue line.toList) ∧
      startsProperty "b--c".toList = false ∧ "b--c".toList.take 2 ≠ ['-', '-'] ∧
      properties ["a", "b--c"] = [[("k", "a\nb")]] ∧
      (Document.parse (text ["a", "b--c"]) "f").messages.map (·.text) =
        ["Missing ';' after value of 'k'"] ∧
      startsProperty "a]b=1".toList = false ∧ "a]b=1".toList.take 2 ≠ ['-', '-'] ∧
      properties ["a", "a]b=1"] = [[("k", "a\na]"), ("b", "1")]] ∧
      (Document.parse (text ["a", "a]b=1"]) "f").messages = [] := by
  refine ⟨?_, ?_, ?_, ?_, ?_, ?_, ?_, ?_, ?_, ?_, ?_⟩ <;> decide +kernel

end ModCheck
