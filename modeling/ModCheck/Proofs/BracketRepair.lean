import ModCheck.Proofs.Renaming
import ModCheck.Proofs.SemicolonRepair

/-
  Putting the missing brackets of headings in. The corrections all fit, each heading is then closed
  and the objects have their type names, but the rest of a repaired section is not always read as
  before. Reading the damaged heading skips to a later bracket of its line, while the correction
  puts one right behind the type name. So the properties stay the same exactly if what stands behind
  the name and what stands behind the skipped part assign the same values, as they do where no
  bracket follows on the line (`parse_brackets_put_in`).
-/

namespace ModCheck

open List

variable {m : Message} {name : Token} {s : Section} {source : String} {ts : List Token}

/-! ## Scanning what was put in -/

theorem assigns_before_bracket (before x y : List Char) :
    assigns (before ++ '[' :: x) = assigns (before ++ '[' :: y) := by
  unfold assigns
  rw [dropWhile_append, dropWhile_append]
  split
  · rfl
  · next h =>
    have hne : before.dropWhile isLineBlank ≠ [] := fun e => h (by rw [e]; rfl)
    rw [head?_append_of_ne_nil _ hne, head?_append_of_ne_nil _ hne]

/-- No lexeme looks past a left bracket. -/
theorem Lexeme.Ends.before_bracket {mode : ScanMode} {l : Lexeme} {before x : List Char}
    (h : l.Ends mode (before ++ '[' :: x)) (y : List Char) : l.Ends mode (before ++ '[' :: y) := by
  have sign := assigns_before_bracket before x y
  have hstop (z : List Char) : (splitValue ('[' :: z)).1 = [] :=
    splitValue_cons_eq_nil.2 (Or.inr (Or.inl rfl))
  have seam (z : List Char) : before.getLast? = some '\r' → ('[' :: z).head? ≠ some '\n' := by simp
  have value : (splitValue (before ++ '[' :: x)).1 = (splitValue (before ++ '[' :: y)).1 := by
    rw [splitValue_append_stop (hstop x) (seam x), splitValue_append_stop (hstop y) (seam y)]
  cases before with
  | nil =>
    exact h.of_cons (by simp [isLineEnd]) (by simp) (fun _ => (sign ▸ ·))
      fun _ _ => hstop y
  | cons c cs =>
    have hhead : (cs ++ '[' :: x).head? = (cs ++ '[' :: y).head? := by cases cs <;> rfl
    rw [cons_append] at h ⊢
    refine h.of_cons (fun _ hl => ?_) (fun _ hd => hhead ▸ hd) (fun _ => (sign ▸ ·))
      fun _ => (value ▸ ·)
    rwa [isLineEnd, ← hhead]

/-- The right bracket behind a type name. -/
def Token.bracket (t : Token) : Token :=
  t.behind .rightBracket "]"

/-- Tokens with right brackets put in behind some names that follow a left bracket. -/
inductive Bracketing : List Token → List Token → List Token → Prop
  | nil : Bracketing [] [] []
  | keep (t : Token) {due ts ts' : List Token} (rest : Bracketing due ts ts') :
      Bracketing due (t :: ts) (t :: ts')
  | mark {o t : Token} {due ts ts' : List Token} (opens : o.kind = .leftBracket)
      (named : t.kind = .identifier) (rest : Bracketing due ts ts') :
      Bracketing (t :: due) (o :: t :: ts) (o :: t :: t.bracket :: ts')

namespace Bracketing

variable {due ts ts' : List Token}

theorem refl (ts : List Token) : Bracketing [] ts ts := by
  induction ts with
  | nil => exact .nil
  | cons t ts ih => exact .keep t ih

theorem putIn (h : Bracketing due ts ts') : PutIn .rightBracket "]" due ts ts' := by
  induction h with
  | nil => exact .nil
  | keep t rest ih => exact .keep t ih
  | mark opens named rest ih => exact .keep _ (.mark (by rw [named]; rfl) ih)

/-- Nothing is put in right behind a token unless a left bracket stands before it. -/
theorem of_cons {t : Token} {us : List Token} (h : Bracketing due (t :: ts) us)
    (ht : t.kind ≠ .leftBracket) : ∃ ts', us = t :: ts' ∧ Bracketing due ts ts' := by
  cases h with
  | keep t rest => exact ⟨_, rfl, rest⟩
  | mark opens named rest => exact absurd opens ht

end Bracketing

/-- Texts that are the same, up to a left bracket or throughout. -/
def SameToBracket (cs cs' : List Char) : Prop :=
  cs' = cs ∨ ∃ before x y, cs = before ++ '[' :: x ∧ cs' = before ++ '[' :: y

theorem SameToBracket.append_left {cs cs' : List Char} (h : SameToBracket cs cs')
    (front : List Char) : SameToBracket (front ++ cs) (front ++ cs') := by
  rcases h with rfl | ⟨before, x, y, rfl, rfl⟩
  · exact Or.inl rfl
  · exact Or.inr ⟨front ++ before, x, y, by simp, by simp⟩

theorem Lexeme.Ends.of_sameToBracket {mode : ScanMode} {l : Lexeme} {cs cs' : List Char}
    (h : l.Ends mode cs) (same : SameToBracket cs cs') : l.Ends mode cs' := by
  rcases same with rfl | ⟨before, x, y, rfl, rfl⟩
  · exact h
  · exact h.before_bracket y

/-- A bracket put in behind a name that follows a left bracket. -/
theorem lexed_bracketed {mode : ScanMode} {o t : Token} {ts' : List Token}
    (opens : o.kind = .leftBracket) (named : t.kind = .identifier)
    (lexed : Lexed mode ((o :: t :: ts).map Token.lexeme))
    (ih : Lexed .normal (ts.map Token.lexeme) → Lexed .normal (ts'.map Token.lexeme)) :
    Lexed mode ((o :: t :: t.bracket :: ts').map Token.lexeme) ∧
      SameToBracket (written (o :: t :: ts)) (written (o :: t :: t.bracket :: ts')) := by
  obtain ⟨formed, -, tail⟩ := lexed.of_cons (Or.inl (by simp [Token.lexeme, opens]))
  obtain ⟨formed', -, tail'⟩ := tail.of_cons (Or.inl (by simp [Token.lexeme, named]))
  -- between the brackets the scanner is out of any value, as it was behind the name
  have hmode : mode.after o.lexeme.kind = .normal := by simp [Token.lexeme, opens, ScanMode.after]
  have hmode' : ScanMode.normal.after t.lexeme.kind = .normal := by
    simp [Token.lexeme, named, ScanMode.after]
  rw [hmode] at formed' tail'
  rw [hmode'] at tail'
  have hsign : t.bracket.lexeme = ⟨[], .rightBracket, [']']⟩ := by
    simp [Token.lexeme, Token.bracket, Token.behind]
  have hopen : o.text.toList = ['['] := by
    have form := formed.2
    simpa [Lexeme.HasForm, Token.lexeme, opens] using form
  refine ⟨.cons formed (by simp [Lexeme.Ends, Token.lexeme, opens]) ?_, Or.inr ⟨o.lead.toList,
    written (t :: ts), written (t :: t.bracket :: ts'), ?_, ?_⟩⟩
  · rw [hmode]
    refine .cons formed' ?_ ?_
    · rw [map_cons, hsign]
      simp [Lexeme.Ends, Token.lexeme, named]
      decide
    · rw [hmode', map_cons, hsign]
      exact .cons ⟨by decide, rfl, rfl⟩ trivial (ih tail')
  · rw [written_cons o, hopen]
    rfl
  · rw [written_cons o, hopen]
    rfl

/-- The lexemes of tokens with brackets put in are again scanned from what they spell. -/
theorem lexed_bracketing {due ts' : List Token} (h : Bracketing due ts ts') {mode : ScanMode}
    (lexed : Lexed mode (ts.map Token.lexeme)) :
    Lexed mode (ts'.map Token.lexeme) ∧ SameToBracket (written ts) (written ts') := by
  induction h generalizing mode with
  | nil => exact ⟨lexed, Or.inl rfl⟩
  | @keep t due ts ts' rest ih =>
    cases ts with
    | nil =>
      cases rest
      exact ⟨lexed, Or.inl rfl⟩
    | cons u us =>
      exact lexed_keep SameToBracket.append_left Lexeme.Ends.of_sameToBracket lexed
        (cons_ne_nil _ _) ih
  | mark opens named rest ih => exact lexed_bracketed opens named lexed fun tail => (ih tail).1

theorem scan_bracketing {due ts' : List Token} (h : Bracketing due (Token.scan source) ts') :
    (Token.scan (String.ofList (written ts'))).map Token.flat = ts'.map Token.flat :=
  scan_written (lexed_bracketing h (scan_lexed source)).1
    (linedUp_putIn h.putIn (by decide) (laid_scan source))

/-! ## Headings and sections -/

/-- The type name of a heading without its right bracket. -/
def Heading.unclosed : Heading → List Token
  | .named name false => [name]
  | _ => []

/-- The tokens of a section with the bracket of its heading put in. -/
def closeHeading (ts : List Token) : List Token :=
  match (readHeading ts).1 with
  | .named name false => name :: name.bracket :: ts.tail
  | _ => ts

def Section.bracketed (s : Section) : Section :=
  ⟨s.opening, closeHeading s.tokens⟩

/-- A section whose heading lacks its right bracket. -/
def Section.IsUnclosed (s : Section) : Prop :=
  ∃ name, (readHeading s.tokens).1 = .named name false

theorem closeHeading_of_unclosed (h : (readHeading ts).1 = .named name false) :
    closeHeading ts = name :: name.bracket :: ts.tail := by
  unfold closeHeading
  rw [h]

theorem closeHeading_of_closed (h : (readHeading ts).1.unclosed = []) : closeHeading ts = ts := by
  unfold closeHeading
  split
  · next name e => simp [e, Heading.unclosed] at h
  · rfl

/-- A repaired heading is closed, and its body is all that stands behind the type name. -/
theorem readHeading_closeHeading (h : (readHeading ts).1 = .named name false) :
    readHeading (closeHeading ts) = (.named name true, ts.tail) := by
  rw [closeHeading_of_unclosed h]
  simp [readHeading, (readHeading_named h).1, Token.bracket, Token.behind]

theorem Heading.unclosed_eq (h : Heading) : h.unclosed = [] ∨ ∃ name, h = .named name false := by
  cases h with
  | unnamed => exact Or.inl rfl
  | named name closed =>
    cases closed with
    | false => exact Or.inr ⟨name, rfl⟩
    | true => exact Or.inl rfl

/-- With brackets where they lack, the sections of a file are the same but for their headings. -/
theorem sections_bracketed (ts : List Token) :
    ∃ ts', Bracketing ((splitSections ts).2.flatMap fun s => (readHeading s.tokens).1.unclosed)
        ts ts' ∧
      splitSections ts' = ((splitSections ts).1, (splitSections ts).2.map Section.bracketed) := by
  induction ts with
  | nil => exact ⟨[], .nil, rfl⟩
  | cons t ts ih =>
    obtain ⟨ts', put, sections⟩ := ih
    by_cases he : t.kind = .endOfFile
    · refine ⟨t :: ts, ?_, ?_⟩
      · rw [splitSections_end he]
        exact .refl _
      · rw [splitSections_end he]
        rfl
    by_cases hb : t.kind = .leftBracket
    · rw [splitSections_bracket hb, flatMap_cons, map_cons]
      rcases Heading.unclosed_eq (readHeading (splitSections ts).1).1 with h | ⟨name, h⟩
      · refine ⟨t :: ts', .keep t ?_, ?_⟩
        · rwa [h]
        · rw [splitSections_bracket hb, sections, Section.bracketed]
          rw [closeHeading_of_closed h]
      · -- the name is the first token behind the bracket, and only kept by what is put in later
        obtain ⟨hk, tail, etail, -⟩ := readHeading_named h
        obtain ⟨after, ets, -, hafter⟩ := splitSections_stray ts
        rw [etail] at ets
        have inner : Inner [name] := fun u hu => by simp [mem_singleton.1 hu, hk]
        have inner' : Inner [name, name.bracket] := fun u hu => by
          rcases mem_cons.1 hu with rfl | hu
          · simp [hk]
          · simp [mem_singleton.1 hu, Token.bracket, Token.behind]
        rw [ets] at put
        obtain ⟨us', rfl, rest⟩ := put.of_cons (by simp [hk])
        rw [← singleton_append, splitSections_inner inner, etail, Prod.mk.injEq] at sections
        obtain ⟨estray, ess⟩ := sections
        have estray : (splitSections us').1 = tail := by simpa using estray
        have e := splitSections_inner inner' us'
        rw [estray, ess] at e
        refine ⟨t :: name :: name.bracket :: us', ?_, ?_⟩
        · rw [h, ets]
          exact .mark hb hk rest
        · rw [splitSections_bracket hb, Section.bracketed]
          rw [closeHeading_of_unclosed h, etail]
          exact congrArg (fun q => (([] : List Token), Section.mk t q.1 :: q.2)) e
    · have inner : Inner [t] := fun u hu => by
        rw [mem_singleton.1 hu]
        exact ⟨hb, he⟩
      have e := splitSections_inner inner ts
      have e' := splitSections_inner inner ts'
      rw [singleton_append] at e e'
      refine ⟨t :: ts', ?_, ?_⟩
      · rw [e]
        exact .keep t put
      · rw [e', e, sections]

/-! ## The corrections -/

section

variable (file : String)

theorem statement_code_ne {st : Statement} (hm : m ∈ st.messages file) :
    m.code ≠ Code.missingBracket.text := by
  cases st with
  | assignment key equals value ending due =>
    rw [assignment_messages] at hm
    split at hm
    · obtain rfl := mem_singleton.1 hm
      show Code.missingSemicolon.text ≠ Code.missingBracket.text
      decide
    · simp at hm
  | bareName key =>
    obtain rfl := mem_singleton.1 hm
    show Code.missingEquals.text ≠ Code.missingBracket.text
    decide
  | stray token =>
    obtain rfl := mem_singleton.1 hm
    show Code.unexpectedToken.text ≠ Code.missingBracket.text
    decide

theorem stray_code_ne (hm : m ∈ strayMessages file ts) : m.code ≠ Code.missingBracket.text := by
  unfold strayMessages at hm
  split at hm
  · simp at hm
  · obtain rfl := mem_singleton.1 hm
    show Code.unexpectedToken.text ≠ Code.missingBracket.text
    decide

/-- Only an unclosed heading is told that its bracket is missing. -/
theorem block_bracket_messages (b : Block) :
    ((b.messages file).filter (·.code = Code.missingBracket.text)).flatMap (·.corrections) =
      b.heading.unclosed.map fun t => .insert file t.stop "]" := by
  have statements : (b.statements.flatMap (Statement.messages file)).filter
      (·.code = Code.missingBracket.text) = [] := by
    rw [filter_eq_nil_iff]
    intro m hm
    obtain ⟨st, -, hm⟩ := mem_flatMap.1 hm
    simpa using statement_code_ne file hm
  rw [Block.messages, filter_append, statements]
  obtain ⟨opening, heading, sts⟩ := b
  cases heading with
  | unnamed => rfl
  | named name closed => cases closed <;> rfl

/-- The brackets are put in behind the type names where they lack. -/
theorem bracket_fixes (source : String) :
    (Document.parse source file).fixes .missingBracket =
      ((splitSections (Token.scan source)).2.flatMap fun s =>
        (readHeading s.tokens).1.unclosed).map fun t => .insert file t.stop "]" := by
  have stray : (strayMessages file (splitSections (Token.scan source)).1).filter
      (·.code = Code.missingBracket.text) = [] := by
    rw [filter_eq_nil_iff]
    intro m hm
    simpa using stray_code_ne file hm
  rw [Document.fixes, parse_messages, filter_append, stray, nil_append, blocksOf,
    flatMap_map, filter_flatMap, flatMap_assoc, map_flatMap]
  congr 1
  funext s
  exact block_bracket_messages file s.toBlock

end

/-! ## The corrected text -/

/-- Up to the places of its tokens, a corrected text has the sections of the old one with their
headings closed. -/
theorem blocks_bracketed (source file : String) :
    ∃ done, Correction.applyAll source ((Document.parse source file).fixes .missingBracket) =
        .ok done ∧ done.skipped = [] ∧
      (blocksOf (Token.scan done.output)).map (Block.map Token.flat) =
        ((splitSections (Token.scan source)).2.map fun s => s.bracketed.toBlock).map
          (Block.map Token.flat) := by
  obtain ⟨ts', put, sections⟩ := sections_bracketed (Token.scan source)
  obtain ⟨done, made, skipped, output⟩ := applyAll_putIn file put.putIn
  rw [← bracket_fixes] at made
  have flat := scan_bracketing put
  rw [← output] at flat
  have hf : ∀ t, (Token.flat t).kind = t.kind := fun _ => rfl
  have blocks : blocksOf ts' =
      (splitSections (Token.scan source)).2.map fun s => s.bracketed.toBlock := by
    rw [blocksOf, sections]
    exact map_map
  refine ⟨done, made, skipped, ?_⟩
  rw [← blocksOf_map hf, flat, blocksOf_map hf, blocks]

theorem unclosed_bracketed (s : Section) : s.bracketed.toBlock.heading.unclosed = [] := by
  show (readHeading (closeHeading s.tokens)).1.unclosed = []
  rcases Heading.unclosed_eq (readHeading s.tokens).1 with h | ⟨name, h⟩
  · rw [closeHeading_of_closed h, h]
  · rw [readHeading_closeHeading h]
    rfl

/-- No heading of the corrected text lacks its bracket. -/
theorem code_ne_of_bracketed {ss : List Section}
    (blocks : (blocksOf ts).map (Block.map Token.flat) =
      (ss.map fun s => s.bracketed.toBlock).map (Block.map Token.flat))
    (file : String) {b : Block} (hb : b ∈ blocksOf ts) (hm : m ∈ b.messages file) :
    m.code ≠ Code.missingBracket.text := by
  have hflat : b.map Token.flat ∈ (ss.map fun s => s.bracketed.toBlock).map
      (Block.map Token.flat) := blocks ▸ mem_map_of_mem hb
  obtain ⟨b', hb', e⟩ := mem_map.1 hflat
  obtain ⟨s, -, rfl⟩ := mem_map.1 hb'
  have closed := unclosed_bracketed s
  have heading : s.bracketed.toBlock.heading.map Token.flat = b.heading.map Token.flat :=
    congrArg Block.heading e
  rcases mem_append.1 hm with hm | hm
  · obtain ⟨opening, bheading, statements⟩ := b
    cases bheading with
    | unnamed =>
      obtain rfl := mem_singleton.1 hm
      show Code.missingTypeName.text ≠ Code.missingBracket.text
      decide
    | named name closes =>
      cases closes with
      | true => simp [Block.headingMessages] at hm
      | false =>
        generalize s.bracketed.toBlock.heading = h at closed heading
        cases h with
        | unnamed => simp [Heading.map] at heading
        | named name' closes' =>
          obtain ⟨-, rfl⟩ : _ ∧ closes' = false := by simpa [Heading.map] using heading
          simp [Heading.unclosed] at closed
  · obtain ⟨st, -, hm⟩ := mem_flatMap.1 hm
    exact statement_code_ne file hm

/-! ## What is read -/

/-- The keys and values that the tokens of a body assign. -/
def assigned (ts : List Token) : List (String × String) :=
  ((readStatements ts).filterMap Statement.property?).map fun q => (q.1, q.2.value)

/-- Keys and values as an object holds them. -/
def stored (ps : List (String × String)) : List (String × String) :=
  (storedKeys [] (ps.map (·.1))).zip (ps.map (·.2))

theorem view?_named {closed : Bool} (h : (readHeading s.tokens).1 = .named name closed) :
    s.toBlock.view? (·.value) = some (name.text, stored (assigned (readHeading s.tokens).2)) := by
  unfold Section.toBlock Block.view?
  dsimp only
  rw [h]
  rfl

/-- A repaired section has its type name, and the properties behind it. -/
theorem view?_bracketed (h : (readHeading s.tokens).1 = .named name false) :
    s.bracketed.toBlock.view? (·.value) = some (name.text, stored (assigned s.tokens.tail)) := by
  have hread : readHeading s.bracketed.tokens = (.named name true, s.tokens.tail) :=
    readHeading_closeHeading h
  have view := view?_named (s := s.bracketed) (congrArg Prod.fst hread)
  rwa [hread] at view

theorem bracketed_of_closed (h : (readHeading s.tokens).1.unclosed = []) : s.bracketed = s := by
  rw [Section.bracketed, closeHeading_of_closed h]

/-! ## Stored keys -/

/-- Without the plus signs at their ends, stored keys are the written ones. -/
theorem map_written_storedKeys {keys : List String} (h : ∀ k ∈ keys, IsPlainKey k)
    (taken : List String) : (storedKeys taken keys).map Key.written = keys := by
  induction keys generalizing taken with
  | nil => rfl
  | cons key keys ih =>
    obtain ⟨hkey, hkeys⟩ := forall_mem_cons.1 h
    obtain ⟨n, hn⟩ := freshKeyFrom_eq taken key taken.length 0
    have hfresh : Key.written (freshKey taken key) = key := by
      rw [freshKey, hn, Key.written_plusKey hkey]
    rw [storedKeys, map_cons, hfresh, ih hkeys]

theorem stored_inj {ps qs : List (String × String)} (hp : ∀ p ∈ ps, IsPlainKey p.1)
    (hq : ∀ q ∈ qs, IsPlainKey q.1) (h : stored ps = stored qs) : ps = qs := by
  have recover : ∀ rs : List (String × String), (∀ r ∈ rs, IsPlainKey r.1) →
      (stored rs).map (fun r => (Key.written r.1, r.2)) = rs := by
    intro rs hrs
    have hkeys : ∀ k ∈ rs.map (·.1), IsPlainKey k := by
      intro k hk
      obtain ⟨r, hr, rfl⟩ := mem_map.1 hk
      exact hrs r hr
    calc (stored rs).map (fun r => (Key.written r.1, r.2))
        = ((storedKeys [] (rs.map (·.1))).map Key.written).zip (rs.map (·.2)) := by
          rw [zip_map_left]
          rfl
      _ = (rs.map (·.1)).zip (rs.map (·.2)) := by rw [map_written_storedKeys hkeys]
      _ = rs := by rw [zip_map']; simp
  rw [← recover ps hp, h, recover qs hq]

/-- The keys of a file are names and have no plus signs of their own. -/
theorem assigned_isPlainKey (hts : ts ⊆ Token.scan source) : ∀ p ∈ assigned ts, IsPlainKey p.1 := by
  intro p hp
  obtain ⟨q, hq, rfl⟩ := mem_map.1 hp
  obtain ⟨st, hst, e⟩ := mem_filterMap.1 hq
  obtain ⟨key, equals, value, ending, due, rfl, hkey, -⟩ := assignment_of_property? e
  obtain ⟨hk, -⟩ := mem_readStatements hst
  have hmem : key ∈ ts :=
    (readStatements_sublist ts).subset (mem_flatMap_of_mem hst mem_cons_self)
  rw [hkey]
  exact (isName_of_mem_scan (hts hmem) hk).isPlainKey

/-! ## Which repairs are faithful -/

/-- Lists that keep the same elements of a list are equal if they keep the same of each. -/
theorem filterMap_eq_iff {α β : Type} {f g : α → Option β} {l : List α}
    (h : ∀ a ∈ l, (f a).isSome = (g a).isSome) :
    l.filterMap f = l.filterMap g ↔ ∀ a ∈ l, f a = g a := by
  induction l with
  | nil => simp
  | cons a l ih =>
    obtain ⟨ha, hl⟩ := forall_mem_cons.1 h
    rw [filterMap_cons, forall_mem_cons, ← ih hl]
    cases hf : f a with
    | none =>
      rw [hf] at ha
      have hg : g a = none := by simpa using ha.symm
      simp [hg]
    | some b =>
      rw [hf] at ha
      obtain ⟨c, hg⟩ := Option.isSome_iff_exists.1 ha.symm
      simp [hg]

/-- The type name of a section stays when its bracket is put in. -/
theorem typeName_bracketed (s : Section) :
    (s.bracketed.toBlock.view? (·.value)).map Prod.fst =
      (s.toBlock.view? (·.value)).map Prod.fst := by
  rcases Heading.unclosed_eq (readHeading s.tokens).1 with h | ⟨name, h⟩
  · rw [bracketed_of_closed h]
  · rw [view?_bracketed h, view?_named h]
    rfl

/-- A section keeps its keys and values exactly if the part of the line that was skipped makes no
difference to them. -/
theorem view?_bracketed_eq_iff (hs : s ∈ (splitSections (Token.scan source)).2) :
    s.bracketed.toBlock.view? (·.value) = s.toBlock.view? (·.value) ↔
      (s.IsUnclosed → assigned s.tokens.tail = assigned (readHeading s.tokens).2) := by
  rcases Heading.unclosed_eq (readHeading s.tokens).1 with h | ⟨name, h⟩
  · refine ⟨fun _ ⟨name, hname⟩ => ?_, fun _ => by rw [bracketed_of_closed h]⟩
    simp [hname, Heading.unclosed] at h
  · obtain ⟨before, after, e, -⟩ := mem_splitSections hs
    have hscan : s.tokens ⊆ Token.scan source := by
      intro t ht
      rw [e]
      simp [ht]
    have plain {ts : List Token} (hts : ts <:+ s.tokens) : ∀ p ∈ assigned ts, IsPlainKey p.1 :=
      assigned_isPlainKey (List.Subset.trans hts.subset hscan)
    rw [view?_bracketed h, view?_named h]
    constructor
    · intro heq _
      exact stored_inj (plain (tail_suffix _)) (plain (readHeading_suffix _))
        (Prod.mk.inj (Option.some.inj heq)).2
    · intro heq
      rw [heq ⟨name, h⟩]

/-- Where no bracket follows on its line, a damaged heading skips nothing. -/
theorem readHeading_of_no_bracket (h : s.IsUnclosed) (hnone : afterBracket? s.tokens.tail = none) :
    (readHeading s.tokens).2 = s.tokens.tail := by
  obtain ⟨name, h⟩ := h
  obtain ⟨hk, tail, etail, -⟩ := readHeading_named h
  rw [etail] at h hnone ⊢
  rw [tail_cons] at hnone ⊢
  cases tail with
  | nil => simp [readHeading, hk]
  | cons close rest =>
    by_cases hc : close.kind = .rightBracket
    · simp [readHeading, hk, hc] at h
    · simp [readHeading, hk, hc, skipHeading, hnone]

/-- What the objects of a file say, section by section. -/
theorem views_sections (source file : String) :
    (Document.parse source file).objects.map (Object.view (·.value)) =
      (splitSections (Token.scan source)).2.filterMap fun s => s.toBlock.view? (·.value) := by
  rw [parse_view, blocksOf, filterMap_map]
  rfl

theorem views_bracketed {output : String} {ss : List Section}
    (blocks : (blocksOf (Token.scan output)).map (Block.map Token.flat) =
      (ss.map fun s => s.bracketed.toBlock).map (Block.map Token.flat)) (file : String) :
    (Document.parse output file).objects.map (Object.view (·.value)) =
      ss.filterMap fun s => s.bracketed.toBlock.view? (·.value) := by
  have flat (bs : List Block) : (bs.map (Block.map Token.flat)).filterMap
      (Block.view? (·.value)) = bs.filterMap (Block.view? (·.value)) :=
    filterMap_view?_flat Prod.fst bs
  rw [parse_view, ← flat, blocks, flat, filterMap_map]
  rfl

/-- Putting the missing brackets in makes all corrections, closes every heading and keeps the type
names. It keeps the keys and values exactly if in every repaired section what stands behind the type
name assigns what was read behind the skipped part, as it does where no bracket follows on the line
of the name. -/
theorem parse_brackets_put_in (source file : String) :
    ∃ done, Correction.applyAll source ((Document.parse source file).fixes .missingBracket) =
        .ok done ∧ done.skipped = [] ∧
      (∀ m ∈ (Document.parse done.output file).messages, m.code ≠ Code.missingBracket.text) ∧
      (Document.parse done.output file).objects.map (·.typeName) =
        (Document.parse source file).objects.map (·.typeName) ∧
      ((Document.parse done.output file).objects.map (Object.view (·.value)) =
          (Document.parse source file).objects.map (Object.view (·.value)) ↔
        ∀ s ∈ (splitSections (Token.scan source)).2, s.IsUnclosed →
          assigned s.tokens.tail = assigned (readHeading s.tokens).2) ∧
      ((∀ s ∈ (splitSections (Token.scan source)).2, s.IsUnclosed →
          afterBracket? s.tokens.tail = none) →
        (Document.parse done.output file).objects.map (Object.view (·.value)) =
          (Document.parse source file).objects.map (Object.view (·.value))) := by
  obtain ⟨done, made, skipped, blocks⟩ := blocks_bracketed source file
  have views := views_bracketed blocks file
  have views' := views_sections source file
  have names (os : List Object) : os.map (·.typeName) =
      (os.map (Object.view (·.value))).map Prod.fst := by
    rw [map_map]
    rfl
  have same : ∀ s ∈ (splitSections (Token.scan source)).2,
      (s.bracketed.toBlock.view? (·.value)).isSome = (s.toBlock.view? (·.value)).isSome := by
    intro s _
    simpa using congrArg Option.isSome (typeName_bracketed s)
  have faithful : (Document.parse done.output file).objects.map (Object.view (·.value)) =
      (Document.parse source file).objects.map (Object.view (·.value)) ↔
      ∀ s ∈ (splitSections (Token.scan source)).2, s.IsUnclosed →
        assigned s.tokens.tail = assigned (readHeading s.tokens).2 := by
    rw [views, views', filterMap_eq_iff same]
    exact forall₂_congr fun s hs => view?_bracketed_eq_iff hs
  refine ⟨done, made, skipped, ?_, ?_, faithful, ?_⟩
  · intro m hm
    rw [parse_messages] at hm
    rcases mem_append.1 hm with hm | hm
    · exact stray_code_ne file hm
    · obtain ⟨b, hb, hm⟩ := mem_flatMap.1 hm
      exact code_ne_of_bracketed blocks file hb hm
  · rw [names, names, views, views', map_filterMap, map_filterMap]
    congr 1
    funext s
    exact typeName_bracketed s
  · intro hnone
    refine faithful.2 fun s hs hopen => ?_
    rw [readHeading_of_no_bracket hopen (hnone s hs hopen)]

/-- The heading is read up to its own late bracket, but the correction closes it before `foo`: the
name and the bracket then start the body, and with them the property is skipped. -/
theorem brackets_put_in_loses_property :
    ∃ done, Correction.applyAll "[A foo] quantity=1;"
        ((Document.parse "[A foo] quantity=1;" "f").fixes .missingBracket) = .ok done ∧
      done.output = "[A] foo] quantity=1;" ∧
      (Document.parse "[A foo] quantity=1;" "f").objects.map (Object.view (·.value)) =
        [("A", [("quantity", "1")])] ∧
      (Document.parse "[A] foo] quantity=1;" "f").objects.map (Object.view (·.value)) =
        [("A", [])] := by
  refine ⟨⟨"[A] foo] quantity=1;", 1, []⟩, ?_, rfl, ?_, ?_⟩
  · decide +kernel
  · decide +kernel
  · decide +kernel

end ModCheck
