import ModCheck.Proofs.Closing
import ModCheck.Proofs.Recovery
import ModCheck.Proofs.Sites

/-
  Putting the missing semicolons in. The corrections of the messages about them fit the text and
  do not collide, and the corrected text is read like the old one: the same type names, keys and
  values, the values that lacked a semicolon now ended by one, and the other messages
  (`parse_semicolons_put_in`).
-/

namespace ModCheck

open List

/-! ## The corrections -/

/-- The corrections of the messages with a code. -/
def Document.fixes (d : Document) (code : Code) : List Correction :=
  (d.messages.filter (·.code = code.text)).flatMap (·.corrections)

theorem statement_fixes (file : String) (st : Statement) :
    ((st.messages file).filter (·.code = Code.missingSemicolon.text)).flatMap (·.corrections) =
      st.due.map (Token.closing file) := by
  cases st with
  | assignment key equals value ending due =>
    rw [assignment_messages, Statement.due]
    cases hl : (Statement.assignment key equals value ending due).lacks with
    | false => rfl
    | true =>
      obtain ⟨last, e, hstop⟩ := exists_last_of_lacks hl
      rw [e, hstop]
      simp [Message.about, Token.closing]
  | bareName key => rfl
  | stray token => rfl

theorem heading_fixes (file : String) (b : Block) :
    (b.headingMessages file).filter (·.code = Code.missingSemicolon.text) = [] := by
  obtain ⟨opening, heading, statements⟩ := b
  cases heading with
  | unnamed => rfl
  | named name closed => cases closed <;> rfl

theorem stray_fixes (file : String) (ts : List Token) :
    (strayMessages file ts).filter (·.code = Code.missingSemicolon.text) = [] := by
  unfold strayMessages
  split <;> rfl

/-- The semicolons are put in behind the tokens where they lack. -/
theorem fixes_eq (source file : String) :
    (Document.parse source file).fixes .missingSemicolon =
      ((blocksOf (Token.scan source)).flatMap Block.due).map (Token.closing file) := by
  rw [Document.fixes, parse_messages, filter_append, stray_fixes, nil_append]
  induction blocksOf (Token.scan source) with
  | nil => rfl
  | cons b bs ih =>
    rw [flatMap_cons, filter_append, flatMap_append, flatMap_cons,
      map_append, Block.messages, filter_append, heading_fixes, nil_append]
    congr 1
    rw [Block.due]
    induction b.statements with
    | nil => rfl
    | cons st sts ih =>
      rw [flatMap_cons, filter_append, flatMap_append, statement_fixes, ih,
        flatMap_cons, map_append]

/-- The corrections are all made, and give the text of the tokens with the signs. -/
theorem applyAll_putIn {sign : TokenKind} {text source : String} {due ts' : List Token}
    (file : String) (h : PutIn sign text due (Token.scan source) ts') :
    ∃ done, Correction.applyAll source (due.map fun t => .insert file t.stop text) = .ok done ∧
      done.skipped = [] ∧ done.output = String.ofList (written ts') := by
  obtain ⟨es, located, bounds, apart, changed⟩ := putIn_edits h file [] (laid_scan source)
  simp only [nil_append, append_nil, written_scan, length_nil] at located bounds changed
  have located' : (due.map fun t => .insert file t.stop text).mapM (Edit.locate source.toList) =
      .ok es := by
    rw [mapM_map]
    exact located
  have inside : ∀ e ∈ es, e.start ≤ e.stop ∧ e.stop ≤ source.toList.length := by
    intro e he
    have := bounds e he
    omega
  rw [applyAll_ascending located' inside apart, changed]
  exact ⟨_, rfl, rfl, rfl⟩

/-! ## What is read -/

/-- What an object says: its type name, its keys, and what `f` tells of their properties. -/
def Object.view {β : Type} (f : Property → β) (o : Object) : String × List (String × β) :=
  (o.typeName, o.properties.map fun q => (q.1, f q.2))

/-- The view of the object of a block. -/
def Block.view? {β : Type} (f : Property → β) (b : Block) : Option (String × List (String × β)) :=
  match b.heading with
  | .unnamed => none
  | .named name _ =>
    let ps := (b.statements.filterMap Statement.property?).map fun q => (q.1, f q.2)
    some (name.text, (storedKeys [] (ps.map (·.1))).zip (ps.map (·.2)))

theorem object?_view {β : Type} (f : Property → β) (file : String) (b : Block) :
    (b.object? file).map (Object.view f) = b.view? f := by
  obtain ⟨opening, heading, statements⟩ := b
  cases heading with
  | unnamed => rfl
  | named name closed =>
    simp only [Block.object?, Block.view?, Option.map_some, Object.view, foldl_insert, Object.empty,
      nil_append, map_map]
    rw [zip_map_right, zip_map_right, map_map]
    rfl

theorem parse_view {β : Type} (f : Property → β) (source file : String) :
    (Document.parse source file).objects.map (Object.view f) =
      (blocksOf (Token.scan source)).filterMap (Block.view? f) := by
  have links (os : List Object) : os.map (Object.view f) =
      (os.map Object.unlinked).map (Object.view f) := by
    rw [map_map]
    rfl
  rw [parse_objects, links, map_unlinked_linkNeighbours, ← links, map_filterMap]
  congr 1
  funext b
  exact object?_view f file b

/-- The code and the text of a message. -/
def Message.gist (m : Message) : String × String :=
  (m.code, m.text)

/-- Whether a message is about something else than a missing semicolon. -/
def Message.isOther (m : Message) : Bool :=
  m.code ≠ Code.missingSemicolon.text

section

variable (file : String)

theorem joinTokens_flat (ts : List Token) : joinTokens (ts.map Token.flat) = joinTokens ts :=
  joinTokens_map (f := Token.flat) (n := 0) (fun _ => rfl) (fun _ => rfl) (fun _ => rfl) ts

theorem lacks_flat (st : Statement) : (st.map Token.flat).lacks = st.lacks := by
  cases st with
  | assignment key equals value ending due =>
    simp only [Statement.map, Statement.lacks, joinTokens_flat]
  | bareName key => rfl
  | stray token => rfl

theorem statement_gists_flat (st : Statement) :
    ((st.map Token.flat).messages file).map Message.gist =
      (st.messages file).map Message.gist := by
  cases st with
  | assignment key equals value ending due =>
    have h := lacks_flat (.assignment key equals value ending due)
    simp only [Statement.map] at h ⊢
    rw [assignment_messages, assignment_messages, h]
    split <;> rfl
  | bareName key => rfl
  | stray token => rfl

theorem heading_gists_flat (b : Block) :
    ((b.map Token.flat).headingMessages file).map Message.gist =
      (b.headingMessages file).map Message.gist := by
  obtain ⟨opening, heading, statements⟩ := b
  cases heading with
  | unnamed => rfl
  | named name closed => cases closed <;> rfl

theorem block_gists_flat (b : Block) :
    ((b.map Token.flat).messages file).map Message.gist =
      (b.messages file).map Message.gist := by
  rw [Block.messages, Block.messages, map_append, map_append, heading_gists_flat,
    show (b.map Token.flat).statements = b.statements.map (Statement.map Token.flat) from rfl,
    flatMap_map, map_flatMap, map_flatMap]
  congr 2
  funext st
  exact statement_gists_flat file st

theorem stray_gists_flat (ts : List Token) :
    (strayMessages file (ts.map Token.flat)).map Message.gist =
      (strayMessages file ts).map Message.gist := by
  unfold strayMessages
  rw [find?_map]
  have e : (fun t : Token => decide (t.kind ≠ .newline) && decide (t.kind ≠ .comment)) ∘
      Token.flat = fun t => decide (t.kind ≠ .newline) && decide (t.kind ≠ .comment) := rfl
  rw [e]
  cases ts.find? fun t => decide (t.kind ≠ .newline) && decide (t.kind ≠ .comment) <;> rfl

theorem stray_isOther (ts : List Token) :
    (strayMessages file ts).filter Message.isOther = strayMessages file ts := by
  unfold strayMessages
  split <;> rfl

/-- A closed statement has the other messages. -/
theorem statement_messages_closed (st : Statement) :
    st.closed.messages file = (st.messages file).filter Message.isOther := by
  cases st with
  | assignment key equals value ending due =>
    cases hl : (Statement.assignment key equals value ending due).lacks with
    | false =>
      rw [Statement.closed_of_not_lacks hl, assignment_messages, if_neg (by simp [hl])]
      rfl
    | true =>
      rw [Statement.closed, if_pos hl, assignment_messages, assignment_messages, if_pos hl]
      rfl
  | bareName key => rfl
  | stray token => rfl

theorem block_messages_closed (b : Block) :
    b.closed.messages file = (b.messages file).filter Message.isOther := by
  have heading : (b.headingMessages file).filter Message.isOther = b.headingMessages file := by
    obtain ⟨opening, heading, statements⟩ := b
    cases heading with
    | unnamed => rfl
    | named name closed => cases closed <;> rfl
  rw [Block.messages, Block.messages, filter_append, heading]
  congr 1
  rw [show b.closed.statements = b.statements.map Statement.closed from rfl, flatMap_map,
    filter_flatMap]
  congr 1
  funext st
  exact statement_messages_closed file st

/-- Codes and texts of messages do not depend on columns. -/
theorem parse_gists (source : String) :
    (Document.parse source file).messages.map Message.gist =
      (strayMessages file ((splitSections (Token.scan source)).1.map Token.flat)).map
          Message.gist ++
        ((blocksOf (Token.scan source)).map (Block.map Token.flat)).flatMap fun b =>
          (b.messages file).map Message.gist := by
  rw [parse_messages, map_append, stray_gists_flat, map_flatMap, flatMap_map]
  congr 2
  funext b
  exact (block_gists_flat file b).symm

end

/-! ## Repaired properties -/

/-- The value of a property, and whether a semicolon ends it. -/
def Property.outcome (p : Property) : String × Bool :=
  (p.value, p.terminated)

/-- Whether a semicolon is put in at the end of a value. -/
def Document.repairs (d : Document) (p : Property) : Bool :=
  (d.fixes .missingSemicolon).any (·.span = .point p.valueSpan.stop)

theorem view?_flat {β : Type} (f : String × Bool → β) (b : Block) :
    (b.map Token.flat).view? (fun p => f p.outcome) = b.view? fun p => f p.outcome := by
  obtain ⟨opening, heading, statements⟩ := b
  cases heading with
  | unnamed => rfl
  | named name closed =>
    have e : ((statements.map (Statement.map Token.flat)).filterMap Statement.property?).map
        (fun q => (q.1, f q.2.outcome)) =
        (statements.filterMap Statement.property?).map fun q => (q.1, f q.2.outcome) := by
      rw [filterMap_map, map_filterMap, map_filterMap]
      congr 1
      funext st
      cases st with
      | assignment key equals value ending due =>
        simp [Statement.map, Statement.property?, Property.outcome, joinTokens_flat, Token.flat]
      | bareName key => rfl
      | stray token => rfl
    simp only [Block.map, Block.view?, e]
    rfl

/-- What is read does not depend on columns and bytes. -/
theorem filterMap_view?_flat {β : Type} (f : String × Bool → β) (bs : List Block) :
    (bs.map (Block.map Token.flat)).filterMap (Block.view? fun p => f p.outcome) =
      bs.filterMap (Block.view? fun p => f p.outcome) := by
  rw [filterMap_map]
  congr 1
  funext b
  exact view?_flat f b

theorem exists_due {st : Statement} {t : Token} (h : t ∈ st.due) :
    st.lacks = true ∧ ∃ k p, st.property? = some (k, p) ∧ p.valueSpan.stop = t.stop := by
  cases st with
  | assignment key equals value ending due =>
    rw [Statement.due] at h
    split at h
    · next hl =>
      obtain ⟨last, e, hstop⟩ := exists_last_of_lacks hl
      rw [e, Option.toList_some, mem_singleton] at h
      exact ⟨hl, _, _, rfl, hstop.trans (by rw [h])⟩
    · simp at h
  | bareName key => simp [Statement.due] at h
  | stray token => simp [Statement.due] at h

/-- The values that get a semicolon are those of the statements that lack one. -/
theorem repairs_eq_lacks {source : String} (file : String) {st : Statement}
    (hst : st ∈ statementsOf (Token.scan source)) {k : String} {p : Property}
    (h : st.property? = some (k, p)) : (Document.parse source file).repairs p = st.lacks := by
  have due_eq : (blocksOf (Token.scan source)).flatMap Block.due =
      (statementsOf (Token.scan source)).flatMap Statement.due := by
    rw [statementsOf, flatMap_assoc]
    rfl
  have hiff : (Document.parse source file).repairs p = true ↔ st.lacks = true := by
    rw [Document.repairs, fixes_eq, due_eq, any_eq_true]
    constructor
    · rintro ⟨c, hc, e⟩
      obtain ⟨t, ht, rfl⟩ := mem_map.1 hc
      obtain ⟨st', hst', ht⟩ := mem_flatMap.1 ht
      obtain ⟨hl, k', p', h', hstop⟩ := exists_due ht
      have e : t.stop = p.valueSpan.stop := by
        simpa [Token.closing, Correction.insert, Span.point] using e
      rw [statement_eq_of_stop_eq hst hst' h h' (e.symm.trans hstop.symm), hl]
    · intro hl
      cases st with
      | assignment key equals value ending due =>
        obtain ⟨last, e, hstop⟩ := exists_last_of_lacks hl
        obtain ⟨-, rfl⟩ := Prod.mk.inj (Option.some.inj h)
        refine ⟨last.closing file, mem_map_of_mem (mem_flatMap_of_mem hst ?_), ?_⟩
        · rw [Statement.due, if_pos hl, e]
          exact mem_singleton_self last
        · simp [Token.closing, Correction.insert, hstop]
      | bareName key => simp [Statement.property?] at h
      | stray token => simp [Statement.property?] at h
  exact Bool.eq_iff_iff.2 hiff

theorem view?_closed {source : String} (file : String) {b : Block}
    (hb : b ∈ blocksOf (Token.scan source)) :
    b.closed.view? Property.outcome = b.view? fun p =>
      (p.value, p.terminated || (Document.parse source file).repairs p) := by
  have e : (b.closed.statements.filterMap Statement.property?).map (fun q => (q.1, q.2.outcome)) =
      (b.statements.filterMap Statement.property?).map fun q =>
        (q.1, q.2.value, q.2.terminated || (Document.parse source file).repairs q.2) := by
    rw [show b.closed.statements = b.statements.map Statement.closed from rfl, filterMap_map,
      map_filterMap, map_filterMap]
    refine filterMap_congr fun st hst => ?_
    cases h : st.property? with
    | none => cases st <;> simp_all [Statement.property?, Statement.closed]
    | some q =>
      have hr := repairs_eq_lacks file (mem_flatMap_of_mem hb hst) h
      cases st with
      | assignment key equals value ending due =>
        obtain rfl := Option.some.inj h
        rw [Option.map_some, hr, Function.comp_apply, Statement.closed]
        split
        · next hl => simp [Statement.property?, Property.outcome, hl]
        · next hl => simp [Statement.property?, Property.outcome, hl]
      | bareName key => simp [Statement.property?] at h
      | stray token => simp [Statement.property?] at h
  simp only [Block.view?, e]
  rfl

/-! ## The corrected text -/

/-- Up to the places of its tokens, a corrected text has the blocks of the old one, with their
statements closed. -/
theorem blocks_put_in (source file : String) :
    ∃ done, Correction.applyAll source ((Document.parse source file).fixes .missingSemicolon) =
        .ok done ∧ done.skipped = [] ∧
      (blocksOf (Token.scan done.output)).map (Block.map Token.flat) =
        ((blocksOf (Token.scan source)).map Block.closed).map (Block.map Token.flat) ∧
      (splitSections (Token.scan done.output)).1.map Token.flat =
        (splitSections (Token.scan source)).1.map Token.flat := by
  obtain ⟨ts', ins, stray, blocks⟩ :=
    sections_closed (Insertion.refl (splitSections (Token.scan source)).1)
  obtain ⟨done, made, skipped, output⟩ := applyAll_putIn file ins.putIn
  change Correction.applyAll source (List.map (Token.closing file) _) = .ok done at made
  rw [nil_append, ← fixes_eq] at made
  have flat := scan_insertion ins
  rw [← output] at flat
  have hf : ∀ t, (Token.flat t).kind = t.kind := fun _ => rfl
  refine ⟨done, made, skipped, ?_, ?_⟩
  · rw [← blocksOf_map hf, flat, blocksOf_map hf, blocks]
  · have e := splitSections_map hf (Token.scan done.output)
    rw [flat, splitSections_map hf, stray] at e
    exact (Prod.mk.inj e).1.symm

section

variable {source output : String}
  (blocks : (blocksOf (Token.scan output)).map (Block.map Token.flat) =
    ((blocksOf (Token.scan source)).map Block.closed).map (Block.map Token.flat))

include blocks

theorem views_put_in (file : String) :
    (Document.parse output file).objects.map (Object.view Property.outcome) =
      (Document.parse source file).objects.map (Object.view fun p =>
        (p.value, p.terminated || (Document.parse source file).repairs p)) := by
  have views (bs : List Block) : (bs.map (Block.map Token.flat)).filterMap
      (Block.view? Property.outcome) = bs.filterMap (Block.view? Property.outcome) :=
    filterMap_view?_flat id bs
  rw [parse_view, parse_view, ← views, blocks, views, filterMap_map]
  exact filterMap_congr fun b hb => view?_closed file hb

theorem gists_put_in (file : String)
    (stray : (splitSections (Token.scan output)).1.map Token.flat =
      (splitSections (Token.scan source)).1.map Token.flat) :
    (Document.parse output file).messages.map Message.gist =
      ((Document.parse source file).messages.filter Message.isOther).map Message.gist := by
  rw [parse_gists, stray, blocks, stray_gists_flat, parse_messages, filter_append, stray_isOther,
    map_append, filter_flatMap, map_flatMap, flatMap_map, flatMap_map]
  congr 2
  funext b
  rw [block_gists_flat, block_messages_closed]

end

/-- Putting the missing semicolons in makes all corrections and changes nothing else: the
corrected text has the same objects with the same keys and values, where the repaired values are
now ended by a semicolon, and the same messages but for those about missing semicolons. -/
theorem parse_semicolons_put_in (source file : String) :
    ∃ done, Correction.applyAll source ((Document.parse source file).fixes .missingSemicolon) =
        .ok done ∧ done.skipped = [] ∧
      (Document.parse done.output file).objects.map (Object.view Property.outcome) =
        (Document.parse source file).objects.map (Object.view fun p =>
          (p.value, p.terminated || (Document.parse source file).repairs p)) ∧
      (Document.parse done.output file).messages.map Message.gist =
        ((Document.parse source file).messages.filter Message.isOther).map Message.gist ∧
      ∀ m ∈ (Document.parse done.output file).messages, m.code ≠ Code.missingSemicolon.text := by
  obtain ⟨done, made, skipped, blocks, stray⟩ := blocks_put_in source file
  have gists := gists_put_in blocks file stray
  refine ⟨done, made, skipped, views_put_in blocks file, gists, ?_⟩
  intro m hm
  have hg : m.gist ∈ ((Document.parse source file).messages.filter Message.isOther).map
      Message.gist := by
    rw [← gists]
    exact mem_map_of_mem hm
  obtain ⟨m', hm', e⟩ := mem_map.1 hg
  have other : m'.code ≠ Code.missingSemicolon.text := by
    simpa [Message.isOther] using (mem_filter.1 hm').2
  rwa [← show m'.code = m.code from congrArg Prod.fst e]

end ModCheck
