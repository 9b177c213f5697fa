import ModCheck.Proofs.Address
import ModCheck.Proofs.LineBreak
import ModCheck.Proofs.TokenMap

/-
  Damage is local. Whatever stands before a section, the section is read as if the file started
  with it, only further down: reading a text, a line break and a text that starts with a bracket
  gives what reading the one gives, followed by what reading the other gives with every line
  number increased (`parse_append_section`). The numbers of neighbours are counted anew.
-/

namespace ModCheck

open List

/-! ## Further down in a file -/

def Position.down (n : Nat) (p : Position) : Position :=
  ⟨p.line + n, p.column⟩

def LineSpan.down (n : Nat) (s : LineSpan) : LineSpan :=
  ⟨s.line + n, s.startColumn, s.endColumn⟩

def Span.down (n : Nat) (s : Span) : Span :=
  ⟨s.start.down n, s.stop.down n⟩

def Property.down (n : Nat) (p : Property) : Property :=
  { p with nameSpan := p.nameSpan.down n, valueSpan := p.valueSpan.down n }

/-- An object `n` lines further down. -/
def Object.down (n : Nat) (o : Object) : Object :=
  { o with
    properties := o.properties.map fun q => (q.1, q.2.down n)
    startLine := o.startLine + n
    endLine := o.endLine + n
    typeSpan := o.typeSpan.down n }

def Correction.down (n : Nat) (c : Correction) : Correction :=
  { c with span := c.span.down n }

def RelatedLine.down (n : Nat) (r : RelatedLine) : RelatedLine :=
  { r with line := r.line + n }

/-- A message about a place `n` lines further down. -/
def Message.down (n : Nat) (m : Message) : Message :=
  { m with
    line := m.line + n
    span := m.span.map (Span.down n)
    corrections := m.corrections.map (Correction.down n)
    related := m.related.map (RelatedLine.down n) }

/-- A token `n` lines and `bytes` bytes further on. -/
def Token.moved (n bytes : Nat) (t : Token) : Token :=
  { t with start := t.start.down n, offset := t.offset + bytes }

section

variable (file : String) (n bytes : Nat)

theorem Token.moved_kind (t : Token) : (t.moved n bytes).kind = t.kind := rfl

theorem Position.down_after (p : Position) (cs : List Char) :
    (p.down n).after cs = (p.after cs).down n := by
  induction cs generalizing p with
  | nil => rfl
  | cons c cs ih =>
    have e : (p.down n).next c = (p.next c).down n := by
      unfold Position.next Position.down
      split
      · simp only [Position.mk.injEq, and_true]
        omega
      · rfl
    rw [Position.after_cons, Position.after_cons, e, ih]

theorem placeLexemes_moved (place : Place) (ls : List Lexeme) :
    placeLexemes ⟨place.offset + bytes, place.position.down n⟩ ls =
      (placeLexemes place ls).map (Token.moved n bytes) := by
  induction ls generalizing place with
  | nil => rfl
  | cons l ls ih =>
    have e (p : Place) (cs : List Char) : Place.after ⟨p.offset + bytes, p.position.down n⟩ cs =
        ⟨(p.after cs).offset + bytes, (p.after cs).position.down n⟩ := by
      simp only [Place.after, Position.down_after, Place.mk.injEq, and_true]
      omega
    rw [placeLexemes, Lexeme.toToken, e, e, ih]
    rfl

/-! ## What a block gives further down -/

theorem joinTokens_moved (ts : List Token) :
    joinTokens (ts.map (Token.moved n bytes)) = joinTokens ts :=
  joinTokens_map (f := Token.moved n bytes) (n := n) (fun _ => rfl) (fun _ => rfl) (fun _ => rfl) ts

theorem valueSpan_moved (equals : Token) (value : List Token) :
    valueSpan (equals.moved n bytes) (value.map (Token.moved n bytes)) =
      (valueSpan equals value).down n := by
  unfold valueSpan
  rw [head?_map, getLast?_map]
  cases value.head? with
  | none => rfl
  | some first =>
    cases value.getLast? with
    | none => rfl
    | some last => rfl

theorem property?_moved (st : Statement) :
    (st.map (Token.moved n bytes)).property? =
      st.property?.map fun q => (q.1, q.2.down n) := by
  cases st with
  | assignment key equals value ending due =>
    simp only [Statement.map, Statement.property?, joinTokens_moved, valueSpan_moved]
    rfl
  | bareName key => rfl
  | stray token => rfl

theorem statement_messages_moved (st : Statement) :
    (st.map (Token.moved n bytes)).messages file = (st.messages file).map (Message.down n) := by
  cases st with
  | assignment key equals value ending due =>
    simp only [Statement.map, Statement.messages, joinTokens_moved, valueSpan_moved]
    split <;> rfl
  | bareName key => rfl
  | stray token => rfl

theorem heading_messages_moved (b : Block) :
    (b.map (Token.moved n bytes)).headingMessages file =
      (b.headingMessages file).map (Message.down n) := by
  obtain ⟨opening, heading, statements⟩ := b
  cases heading with
  | unnamed => rfl
  | named name closed => cases closed <;> rfl

theorem block_messages_moved (b : Block) :
    (b.map (Token.moved n bytes)).messages file = (b.messages file).map (Message.down n) := by
  rw [Block.messages, Block.messages, heading_messages_moved, map_append, map_flatMap]
  congr 1
  rw [show (b.map (Token.moved n bytes)).statements =
    b.statements.map (Statement.map (Token.moved n bytes)) from rfl, flatMap_map]
  congr 1
  funext st
  exact statement_messages_moved file n bytes st

theorem insertAll_down (ps : List (String × Property)) (o : Object) :
    (ps.map fun q => (q.1, q.2.down n)).foldl (fun o q => o.insert q.1 q.2) (o.down n) =
      (ps.foldl (fun o q => o.insert q.1 q.2) o).down n := by
  induction ps generalizing o with
  | nil => rfl
  | cons q ps ih =>
    have e : (o.down n).insert q.1 (q.2.down n) = (o.insert q.1 q.2).down n := by
      have hk : (o.down n).keys = o.keys := by
        simp [Object.keys, Object.down]
      simp only [Object.insert, hk]
      simp [Object.down]
    rw [map_cons, foldl_cons, foldl_cons, e, ih]

theorem lastLine_moved (st : Statement) :
    (st.map (Token.moved n bytes)).lastLine = st.lastLine + n ∨
      (st.map (Token.moved n bytes)).lastLine = 0 ∧ st.lastLine = 0 := by
  cases st with
  | assignment key equals value ending due =>
    left
    simp only [Statement.map, Statement.lastLine, valueSpan_moved]
    exact (Nat.add_max_add_right _ _ _)
  | bareName key => exact Or.inl rfl
  | stray token => exact Or.inr ⟨rfl, rfl⟩

/-- Tokens that start no property count as line 0, before and after. -/
theorem foldl_lastLine_moved (sts : List Statement) (line : Nat) :
    ((sts.map (Statement.map (Token.moved n bytes))).map Statement.lastLine).foldl max (line + n) =
      (sts.map Statement.lastLine).foldl max line + n := by
  induction sts generalizing line with
  | nil => rfl
  | cons st sts ih =>
    have e : max (line + n) (st.map (Token.moved n bytes)).lastLine = max line st.lastLine + n := by
      rcases lastLine_moved n bytes st with h | ⟨h, h'⟩
      · rw [h]
        omega
      · rw [h]
        omega
    rw [map_cons, map_cons, map_cons, foldl_cons, foldl_cons, e, ih]

theorem object?_moved (b : Block) :
    (b.map (Token.moved n bytes)).object? file = (b.object? file).map (Object.down n) := by
  obtain ⟨opening, heading, statements⟩ := b
  cases heading with
  | unnamed => rfl
  | named name closed =>
    have hp : (statements.map (Statement.map (Token.moved n bytes))).filterMap
        Statement.property? =
        (statements.filterMap Statement.property?).map fun q => (q.1, q.2.down n) := by
      rw [filterMap_map, map_filterMap]
      congr 1
      funext st
      exact property?_moved n bytes st
    have hi := insertAll_down n (statements.filterMap Statement.property?)
      { Object.empty name.text file name.lineSpan with startLine := opening.line }
    simp only [Block.object?, Block.map, Heading.map]
    rw [hp]
    have he : ({ Object.empty (name.moved n bytes).text file (name.moved n bytes).lineSpan with
        startLine := (opening.moved n bytes).line } : Object) = Object.down n
        { Object.empty name.text file name.lineSpan with startLine := opening.line } := rfl
    rw [he, hi, Object.down, foldl_lastLine_moved]
    rfl

end

/-! ## Sections in a row -/

theorem splitSections_append_section {ts us : List Token} (ht : ∀ t ∈ ts, t.kind ≠ .endOfFile)
    (hu : (splitSections us).1 = []) :
    splitSections (ts ++ us) =
      ((splitSections ts).1, (splitSections ts).2 ++ (splitSections us).2) := by
  induction ts with
  | nil => exact Prod.ext hu rfl
  | cons t ts ih =>
    rw [cons_append, splitSections, if_neg (ht t mem_cons_self),
      ih fun u hu => ht u (mem_cons_of_mem _ hu), splitSections, if_neg (ht t mem_cons_self)]
    split <;> rfl

/-- A line break behind the last section, or behind the tokens before the first, changes neither
the blocks nor the message about stray tokens. -/
theorem blocksOf_append_newline (ts : List Token) {nl : Token} (hn : nl.kind = .newline) :
    blocksOf (ts ++ [nl]) = blocksOf ts ∧
      ((splitSections (ts ++ [nl])).1 = (splitSections ts).1 ∨
        (splitSections (ts ++ [nl])).1 = (splitSections ts).1 ++ [nl]) := by
  unfold blocksOf
  induction ts with
  | nil => simp [splitSections, hn]
  | cons t ts ih =>
    obtain ⟨blocks, stray⟩ := ih
    rw [cons_append, splitSections, splitSections]
    split
    · exact ⟨rfl, Or.inl rfl⟩
    · dsimp only
      split
      · refine ⟨?_, Or.inl rfl⟩
        rw [map_cons, map_cons, blocks]
        rcases stray with e | e
        · rw [e]
        · rw [e, toBlock_newline hn]
      · refine ⟨blocks, ?_⟩
        rcases stray with e | e
        · exact Or.inl (by rw [e])
        · exact Or.inr (by rw [e]; rfl)

theorem strayMessages_append_newline (file : String) (ts : List Token) {nl : Token}
    (hn : nl.kind = .newline) : strayMessages file (ts ++ [nl]) = strayMessages file ts := by
  have e : (ts ++ [nl]).find? (fun t => t.kind ≠ .newline && t.kind ≠ .comment) =
      ts.find? fun t => t.kind ≠ .newline && t.kind ≠ .comment := by
    simp [hn]
  rw [strayMessages, strayMessages, e]

/-! ## Neighbours -/

/-- An object without the numbers of its neighbours. -/
def Object.unlinked (o : Object) : Object :=
  { o with previous := none, next := none }

theorem map_unlinked_linkNeighbours (os : List Object) :
    (linkNeighbours os).map Object.unlinked = os.map Object.unlinked := by
  unfold linkNeighbours
  exact ext_getElem (by simp) fun i _ _ => by simp [Object.unlinked]

/-- The numbers that objects come with do not matter. -/
theorem linkNeighbours_congr {os os' : List Object}
    (h : os.map Object.unlinked = os'.map Object.unlinked) :
    linkNeighbours os = linkNeighbours os' := by
  have key (os : List Object) : linkNeighbours os = linkNeighbours (os.map Object.unlinked) := by
    unfold linkNeighbours
    exact ext_getElem (by simp) fun i _ _ => by simp [Object.unlinked]
  rw [key os, key os', h]

/-! ## Texts in a row -/

theorem Place.after_append (place : Place) (cs ds : List Char) :
    place.after (cs ++ ds) = (place.after cs).after ds := by
  simp only [Place.after, Position.after_append, byteLength_append, Nat.add_assoc]

theorem placeLexemes_append (place : Place) (ls ms : List Lexeme) :
    placeLexemes place (ls ++ ms) =
      placeLexemes place ls ++ placeLexemes (place.after (spell ls)) ms := by
  induction ls generalizing place with
  | nil => rfl
  | cons l ls ih =>
    rw [cons_append, placeLexemes, ih, spell_cons, Place.after_append, Place.after_append]
    rfl

theorem Segment.kind_ne {rest : List Char} {last mode : ScanMode} {ls : List Lexeme}
    (h : Segment rest last mode ls) {l : Lexeme} (hl : l ∈ ls) : l.kind ≠ .endOfFile := by
  induction h with
  | nil => simp at hl
  | cons formed _ _ ih =>
    rcases mem_cons.1 hl with rfl | hl
    · exact formed.kind_ne
    · exact ih hl

theorem kind_mem_placeLexemes {place : Place} {ls : List Lexeme} {t : Token}
    (h : t ∈ placeLexemes place ls) : ∃ l ∈ ls, l.kind = t.kind := by
  induction ls generalizing place with
  | nil => simp [placeLexemes] at h
  | cons l ls ih =>
    rcases mem_cons.1 h with rfl | h
    · exact ⟨l, mem_cons_self, rfl⟩
    · obtain ⟨m, hm, e⟩ := ih h
      exact ⟨m, mem_cons_of_mem _ hm, e⟩

/-- The tokens of a text: those of its lexemes, none of which claims to be its end, and the end. -/
theorem scan_eq_of_lexemes {cs gap : List Char} {init : List Lexeme}
    (h : lexemes .normal cs = init ++ [⟨gap, .endOfFile, []⟩]) :
    Token.scan (String.ofList cs) = placeLexemes .start init ++
        [(Lexeme.mk gap .endOfFile []).toToken (Place.start.after (spell init))] ∧
      ∀ t ∈ placeLexemes .start init, t.kind ≠ .endOfFile := by
  constructor
  · rw [Token.scan, String.toList_ofList, h, placeLexemes_append]
    rfl
  · intro t ht
    have lexed := (lexed_lexemes .normal cs).1
    rw [h] at lexed
    obtain ⟨last, seg, -⟩ := (lexed_append (cons_ne_nil _ _)).1 lexed
    obtain ⟨l, hl, hk⟩ := kind_mem_placeLexemes ht
    rw [← hk]
    exact seg.kind_ne hl

/-- The tokens of two texts with a line break between them. -/
theorem scan_append_break {cs nl : List Char} (h : BreaksAfter cs nl) (ds : List Char) :
    ∃ ts e, (∀ u ∈ ts, u.kind ≠ .endOfFile) ∧ e.kind = .endOfFile ∧
      Token.scan (String.ofList cs) = ts ++ [e] ∧
      Token.scan (String.ofList (cs ++ (nl ++ ds))) =
        ts ++ { e with kind := .newline, text := String.ofList nl } ::
          (Token.scan (String.ofList ds)).map
            (Token.moved (cs.count '\n' + 1) (byteLength (cs ++ nl))) := by
  obtain ⟨init, gap, e, e'⟩ := lexemes_append_break h .normal ds
  have spelled : spell init ++ gap = cs := by
    have := (lexed_lexemes .normal cs).2
    rw [e] at this
    simpa [spell_append] using this
  have hplace : ((Place.start.after (spell init)).after gap).after nl =
      ⟨Place.start.offset + byteLength (cs ++ nl),
        Place.start.position.down (cs.count '\n' + 1)⟩ := by
    rw [← Place.after_append, ← Place.after_append, ← append_assoc, spelled]
    have hpos : Position.after ⟨1, 0⟩ (cs ++ nl) = Position.down (cs.count '\n' + 1) ⟨1, 0⟩ := by
      have key (xs : List Char) (hx : xs.count '\n' = cs.count '\n') :
          Position.after ⟨1, 0⟩ (xs ++ ['\n']) = Position.down (cs.count '\n' + 1) ⟨1, 0⟩ := by
        rw [Position.after_append, Position.after_cons, Position.after_nil, Position.next,
          if_pos (by decide), Position.after_line]
        simp only [Position.down, Position.mk.injEq, and_true]
        omega
      rcases h with ⟨rfl, -⟩ | rfl
      · exact key cs rfl
      · rw [show cs ++ ['\r', '\n'] = (cs ++ ['\r']) ++ ['\n'] by simp]
        exact key _ (by simp)
    rw [Place.after, Place.start, hpos]
  obtain ⟨scan, hts⟩ := scan_eq_of_lexemes e
  refine ⟨placeLexemes .start init, _, hts, rfl, scan, ?_⟩
  rw [Token.scan, Token.scan, String.toList_ofList, String.toList_ofList, e',
    placeLexemes_append, placeLexemes, hplace, placeLexemes_moved]
  rfl

/-- A text that starts with a bracket starts with a section. -/
theorem splitSections_of_bracket {cs : List Char} (h : cs.head? = some '[') :
    (splitSections (Token.scan (String.ofList cs))).1 = [] := by
  obtain ⟨ds, rfl⟩ := head?_eq_some_iff.1 h
  have e : Lexeme.next .normal ('[' :: ds) = (⟨[], .leftBracket, ['[']⟩, ds) := by
    rfl
  rw [Token.scan, String.toList_ofList, lexemes, e]
  dsimp only
  rw [if_neg (by decide), placeLexemes, splitSections, if_neg (by simp [Lexeme.toToken]),
    if_pos (by simp [Lexeme.toToken])]

theorem splitSections_append_end {ts : List Token} {e : Token} (ht : ∀ t ∈ ts, t.kind ≠ .endOfFile)
    (he : e.kind = .endOfFile) : splitSections (ts ++ [e]) = splitSections ts := by
  have h : splitSections [e] = ([], []) := by simp [splitSections, he]
  rw [splitSections_append_section ht (by rw [h]), h, append_nil]

/-- Sections behind a line break are read on their own, and nothing changes before it. -/
theorem read_append_sections {ts us : List Token} {t : Token} (hts : ∀ t ∈ ts, t.kind ≠ .endOfFile)
    (hn : t.kind = .newline) (hu : (splitSections us).1 = []) (file : String) :
    blocksOf (ts ++ t :: us) = blocksOf ts ++ blocksOf us ∧
      strayMessages file (splitSections (ts ++ t :: us)).1 =
        strayMessages file (splitSections ts).1 := by
  have htn : ∀ u ∈ ts ++ [t], u.kind ≠ .endOfFile := by
    intro u hu
    rcases mem_append.1 hu with hu | hu
    · exact hts u hu
    · rw [mem_singleton.1 hu, hn]
      decide
  have e : splitSections (ts ++ t :: us) =
      ((splitSections (ts ++ [t])).1, (splitSections (ts ++ [t])).2 ++ (splitSections us).2) := by
    rw [append_cons, splitSections_append_section htn hu]
  obtain ⟨blocks, stray⟩ := blocksOf_append_newline ts hn
  constructor
  · rw [← blocks, blocksOf, e, map_append]
    rfl
  · rw [e]
    rcases stray with h | h
    · rw [h]
    · rw [h, strayMessages_append_newline file _ hn]

theorem parse_objects (source file : String) :
    (Document.parse source file).objects =
      linkNeighbours ((blocksOf (Token.scan source)).filterMap (Block.object? file)) := rfl

theorem parse_messages (source file : String) :
    (Document.parse source file).messages =
      strayMessages file (splitSections (Token.scan source)).1 ++
        (blocksOf (Token.scan source)).flatMap (Block.messages file) := rfl

theorem strayMessages_nil (file : String) : strayMessages file [] = [] := rfl

theorem parse_append_break (cs nl : List Char) {ds : List Char} (h : BreaksAfter cs nl)
    (hd : ds.head? = some '[') (file : String) :
    (Document.parse (String.ofList (cs ++ (nl ++ ds))) file).objects =
        linkNeighbours ((Document.parse (String.ofList cs) file).objects ++
          (Document.parse (String.ofList ds) file).objects.map
            (Object.down (cs.count '\n' + 1))) ∧
      (Document.parse (String.ofList (cs ++ (nl ++ ds))) file).messages =
        (Document.parse (String.ofList cs) file).messages ++
          (Document.parse (String.ofList ds) file).messages.map
            (Message.down (cs.count '\n' + 1)) := by
  obtain ⟨ts, e, hts, he, hcs, hall⟩ := scan_append_break h ds
  generalize cs.count '\n' + 1 = n at hall ⊢
  generalize byteLength (cs ++ nl) = bytes at hall
  -- the second text starts with a bracket: it has no stray tokens, and moving it adds none
  have stray := splitSections_of_bracket hd
  have hu : (splitSections ((Token.scan (String.ofList ds)).map (Token.moved n bytes))).1 = [] := by
    rw [splitSections_map (Token.moved_kind n bytes), stray]
    rfl
  obtain ⟨blocks, first⟩ :=
    read_append_sections (t := { e with kind := .newline, text := String.ofList nl })
      hts rfl hu file
  have hb : blocksOf (ts ++ [e]) = blocksOf ts := by
    rw [blocksOf, splitSections_append_end hts he]
    rfl
  rw [parse_objects, parse_objects, parse_objects, parse_messages, parse_messages, parse_messages,
    hall, hcs, blocks, first, hb, splitSections_append_end hts he, stray,
    blocksOf_map (Token.moved_kind n bytes)]
  constructor
  · apply linkNeighbours_congr
    have down : (((blocksOf (Token.scan (String.ofList ds))).map
        (Block.map (Token.moved n bytes))).filterMap (Block.object? file)) =
        ((blocksOf (Token.scan (String.ofList ds))).filterMap (Block.object? file)).map
          (Object.down n) := by
      rw [filterMap_map, map_filterMap]
      congr 1
      funext b
      exact object?_moved file n bytes b
    have unlink (os : List Object) : (os.map (Object.down n)).map Object.unlinked =
        (os.map Object.unlinked).map (Object.down n) := by
      rw [map_map, map_map]
      rfl
    rw [filterMap_append, map_append, map_append, map_unlinked_linkNeighbours,
      unlink, map_unlinked_linkNeighbours, down, unlink]
  · have down : ((blocksOf (Token.scan (String.ofList ds))).map
        (Block.map (Token.moved n bytes))).flatMap (Block.messages file) =
        ((blocksOf (Token.scan (String.ofList ds))).flatMap (Block.messages file)).map
          (Message.down n) := by
      rw [flatMap_map, map_flatMap]
      congr 1
      funext b
      exact block_messages_moved file n bytes b
    rw [flatMap_append, down, strayMessages_nil, nil_append, append_assoc]

/-! ## A carriage return at the end of a text -/

/-- A token without the text of a comment. -/
def Token.hushed (t : Token) : Token :=
  if t.kind = .comment then { t with text := "" } else t

theorem Token.hushed_kind (t : Token) : t.hushed.kind = t.kind := by
  unfold Token.hushed
  split <;> rfl

theorem Token.hushed_of_ne {t : Token} (h : t.kind ≠ .comment) : t.hushed = t := if_neg h

theorem blocksOf_hushed (ts : List Token) : blocksOf (ts.map Token.hushed) = blocksOf ts := by
  rw [blocksOf, splitSections_map Token.hushed_kind, map_map]
  refine map_congr_left fun s hs => ?_
  exact toBlock_comments Token.hushed_kind (fun t => Token.hushed_of_ne)
    ((inner_splitSections ts).2 s hs).1

theorem strayMessages_hushed (file : String) (ts : List Token) :
    strayMessages file (ts.map Token.hushed) = strayMessages file ts := by
  have e : (ts.map Token.hushed).find? (fun t => t.kind ≠ .newline && t.kind ≠ .comment) =
      ts.find? fun t => t.kind ≠ .newline && t.kind ≠ .comment := by
    induction ts with
    | nil => rfl
    | cons t ts ih =>
      rw [map_cons, find?_cons, find?_cons, Token.hushed_kind, ih]
      split
      · next h =>
        rw [Token.hushed_of_ne]
        simp only [Bool.and_eq_true, decide_eq_true_eq] at h
        exact h.2
      · rfl
  rw [strayMessages, strayMessages, e]

/-- Texts whose tokens agree but for comments and the end of the file are read alike. -/
theorem parse_eq_of_hushed {source source' : String} (file : String) {ts ts' : List Token}
    {e e' : Token} (h : Token.scan source = ts ++ [e]) (h' : Token.scan source' = ts' ++ [e'])
    (ht : ∀ t ∈ ts, t.kind ≠ .endOfFile) (ht' : ∀ t ∈ ts', t.kind ≠ .endOfFile)
    (he : e.kind = .endOfFile) (he' : e'.kind = .endOfFile)
    (hts : ts.map Token.hushed = ts'.map Token.hushed) :
    Document.parse source file = Document.parse source' file := by
  have blocks : blocksOf ts = blocksOf ts' := by
    rw [← blocksOf_hushed, hts, blocksOf_hushed]
  have stray :
      strayMessages file (splitSections ts).1 = strayMessages file (splitSections ts').1 := by
    have key (ts : List Token) : strayMessages file (splitSections ts).1 =
        strayMessages file (splitSections (ts.map Token.hushed)).1 := by
      rw [splitSections_map Token.hushed_kind, strayMessages_hushed]
    rw [key, hts, ← key]
  unfold blocksOf at blocks
  rw [Document.parse, Document.parse, h, h', splitSections_append_end ht he,
    splitSections_append_end ht' he', blocks, stray]

theorem parse_append_return (cs : List Char) (file : String) :
    Document.parse (String.ofList (cs ++ ['\r'])) file =
      Document.parse (String.ofList cs) file := by
  obtain ⟨init, gap, e, e' | ⟨before, l, rfl, hk, e'⟩⟩ := lexemes_append_return .normal cs
  · obtain ⟨scan, hts⟩ := scan_eq_of_lexemes e
    obtain ⟨scan', hts'⟩ := scan_eq_of_lexemes e'
    exact parse_eq_of_hushed file scan' scan hts' hts rfl rfl rfl
  · obtain ⟨scan, hts⟩ := scan_eq_of_lexemes e
    obtain ⟨scan', hts'⟩ := scan_eq_of_lexemes (e'.trans (append_cons _ _ _))
    refine parse_eq_of_hushed file scan' scan hts' hts rfl rfl ?_
    -- both end with the same comment, but for its text
    rw [placeLexemes_append, placeLexemes_append]
    simp [placeLexemes, Lexeme.toToken, Token.hushed, hk]

/-- Nothing before a section changes how it is read: a text, a line break and a text that starts
with a bracket are read into the objects and messages of the first, and those of the second with
their lines counted on. -/
theorem parse_append_section (before rest file : String) (h : rest.toList.head? = some '[') :
    (Document.parse (before ++ "\n" ++ rest) file).objects =
        linkNeighbours ((Document.parse before file).objects ++
          (Document.parse rest file).objects.map
            (Object.down (before.toList.count '\n' + 1))) ∧
      (Document.parse (before ++ "\n" ++ rest) file).messages =
        (Document.parse before file).messages ++
          (Document.parse rest file).messages.map
            (Message.down (before.toList.count '\n' + 1)) := by
  have hall : before ++ "\n" ++ rest =
      String.ofList (before.toList ++ (['\n'] ++ rest.toList)) := by
    apply String.toList_injective
    simp
  by_cases hr : before.toList.getLast? = some '\r'
  · -- the carriage return becomes part of the line break
    obtain ⟨cs, hcs⟩ := getLast?_eq_some_iff.1 hr
    have hbefore : before = String.ofList (cs ++ ['\r']) := by
      rw [← hcs, String.ofList_toList]
    have := parse_append_break cs ['\r', '\n'] (Or.inr rfl) h file
    rw [hall, hbefore, parse_append_return]
    simpa using this
  · have := parse_append_break before.toList ['\n'] (Or.inl ⟨rfl, hr⟩) h file
    rw [hall]
    simpa using this

/-- A heading without its bracket and values without their semicolons: the section behind them is
read as on its own, and its message is two lines further down. -/
theorem parse_section_after_damage :
    let before := "[A\nk = v -- w\r"
    let rest := "[B] j = 1"
    let outline := fun o : Object =>
      (o.typeName, o.startLine, o.previous, o.properties.map fun q => (q.1, q.2.value))
    let report := fun m : Message => (m.line, m.text)
    rest.toList.head? = some '[' ∧
      (Document.parse before "f").objects.map outline = [("A", 1, none, [("k", "v -- w")])] ∧
      (Document.parse before "f").messages.map report =
        [(1, "Missing ']' after object type 'A'"), (2, "Missing ';' after value of 'k'")] ∧
      (Document.parse rest "f").objects.map outline = [("B", 1, none, [("j", "1")])] ∧
      (Document.parse rest "f").messages.map report = [(1, "Missing ';' after value of 'j'")] ∧
      (Document.parse (before ++ "\n" ++ rest) "f").objects.map outline =
        [("A", 1, none, [("k", "v -- w")]), ("B", 3, some 0, [("j", "1")])] ∧
      (Document.parse (before ++ "\n" ++ rest) "f").messages.map report =
        [(1, "Missing ']' after object type 'A'"), (2, "Missing ';' after value of 'k'"),
         (3, "Missing ';' after value of 'j'")] := by
  intro before rest outline report
  obtain ⟨objects, messages⟩ := parse_append_section before rest "f" (by decide)
  rw [objects, messages]
  refine ⟨?_, ?_, ?_, ?_, ?_, ?_, ?_⟩ <;> decide +kernel

end ModCheck
