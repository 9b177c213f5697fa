import ModCheck.Proofs.MessageOrigins
import ModCheck.Proofs.Sites
import ModCheck.Proofs.ValueTrace

/-
  The places of messages. `Reported` says where each message of a validation comes from: from the
  tokens of the text, from an object or from a property. Whatever
  the message, both ends of its span have an address in the file, and its corrections are made on
  that span or at its end (`placed_of_reported`).
-/

namespace ModCheck

open List

variable {b : Block} {file : String} {m : Message} {t : Token}

/-! ## Where messages come from -/

section

variable (schema : Schema) (options : Options) (source file : String)

/-- The messages that a file can get. -/
inductive Reported : Message → Prop
  | text {m : Message} (h : AboutText file (Token.scan source) m) : Reported m
  /-- A type that is not declared. -/
  | unknown {o : Object} (ho : o ∈ (Document.parse source file).objects)
      (h : schema.objects.type? o.typeName = none) :
      Reported (unknownType schema.objects options o)
  /-- A message about an object, at its type name. -/
  | object {o : Object} {m : Message} (ho : o ∈ (Document.parse source file).objects)
      (span : m.span = some o.typeSpan.toSpan) (plain : m.corrections = []) : Reported m
  /-- A message about a key of an object. -/
  | key {o : Object} {k : String} {p : Property} {m : Message}
      (ho : o ∈ (Document.parse source file).objects) (hp : (k, p) ∈ o.properties)
      (span : m.span = some p.nameSpan.toSpan) (plain : m.corrections = []) : Reported m
  /-- A message from the checks of a field. -/
  | property {o : Object} {k : String} {p : Property} {c : ObjectClass} {m : Message}
      (ho : o ∈ (Document.parse source file).objects) (hp : (k, p) ∈ o.properties)
      (hc : schema.objects.classOfType? o.typeName = some c)
      (h : AboutProperty schema options o c (k, p) m) : Reported m
  /-- A message about an identifier, at its value. -/
  | identifier {o : Object} {k : String} {p : Property} {m : Message}
      (ho : o ∈ (Document.parse source file).objects) (hp : (k, p) ∈ o.properties)
      (span : m.span = some p.valueSpan) (plain : m.corrections = []) : Reported m

variable {schema options source file}

theorem reported_object {o : Object} (ho : o ∈ (Document.parse source file).objects)
    {before : List Object} (h : AboutObject schema options before o m) :
    Reported schema options source file m := by
  cases h with
  | unknown none => exact .unknown ho none
  | identifier => exact .object ho rfl rfl
  | copy _ _ he => exact .key ho he rfl rfl
  | misplaced => exact .object ho rfl rfl
  | property hc he about => exact .property ho he hc about

/-- A message about an identifier that occurs again stands at the identifier of an object. -/
theorem mem_repeatedIds {documents : List Document} (h : m ∈ repeatedIds documents) :
    ∃ o ∈ documents.flatMap (·.objects), ∃ p, (Key.id, p) ∈ o.properties ∧
      m.span = some p.valueSpan ∧ m.corrections = [] := by
  obtain ⟨typeName, id, members, p, o, ho, carried, hp, rfl⟩ := exists_of_mem_repeatedIds h
  obtain ⟨l, r, e, -⟩ := lookup_eq_some_iff.1 hp
  exact ⟨o, (carried o ho).1, p, by simp [e], rfl, rfl⟩

theorem reported_validate (h : m ∈ (validate schema options [⟨file, source⟩]).all) :
    Reported schema options source file m := by
  rcases about_of_mem_validate h with ⟨f, hf, about | ⟨us, o, vs, split, about⟩⟩ | h
  · rw [mem_singleton.1 hf] at about
    exact .text about
  · rw [mem_singleton.1 hf] at split
    exact reported_object (by simp [split]) about
  · obtain ⟨o, ho, p, hp, span, plain⟩ := mem_repeatedIds h
    obtain ⟨d, hd, ho⟩ := mem_flatMap.1 ho
    rw [mem_singleton.1 hd] at ho
    exact .identifier ho hp span plain

end

/-! ## Spans that resolve -/

/-- Both ends of a span have an address. -/
def Span.Resolves (text : List Char) (s : Span) : Prop :=
  ∃ i j, Spot text s.start i ∧ Spot text s.stop j

section

variable {source : String}

theorem resolves_token (ht : t ∈ Token.scan source) (hs : t.kind.isSolid = true) :
    t.span.Resolves source.toList := by
  obtain ⟨us, vs, e⟩ := append_of_mem ht
  have laid := laid_scan source
  have whole := written_scan source
  rw [e] at laid whole
  obtain ⟨sane, start, -, -⟩ := (laid_append.1 laid).2
  have solid := sane.solid hs
  rw [written_append] at whole
  have first : [] ++ written us ++ t.lead.toList ++ (t.text.toList ++ written vs) =
      source.toList := by
    simpa using whole
  have last : [] ++ written us ++ t.lead.toList ++ t.text.toList ++ written vs =
      source.toList := by
    simpa using whole
  have hfirst := spot_append first (solid.addressable_start _ _)
  have hlast := spot_append last (solid.addressable_stop _ _)
  rw [← start] at hfirst
  rw [Position.after_append, ← start, ← solid.stop_eq] at hlast
  exact ⟨_, _, hfirst, hlast⟩

/-- A token in front of all objects is in the file. -/
theorem stray_solid (ht : t ∈ (splitSections (Token.scan source)).1) (newline : t.kind ≠ .newline)
    (comment : t.kind ≠ .comment) : t ∈ Token.scan source ∧ t.kind.isSolid = true := by
  have inner := (inner_splitSections (Token.scan source)).1 t ht
  obtain ⟨rest, e⟩ := splitSections_append (Token.scan source)
  refine ⟨?_, TokenKind.isSolid_iff.2 ⟨newline, comment, inner.2⟩⟩
  rw [e]
  simp [ht]

theorem resolves_kept (ht : t ∈ (blocksOf (Token.scan source)).flatMap Block.tokens) :
    t.span.Resolves source.toList :=
  resolves_token ((blocks_sublist _).subset ht) (kept_solid source ht).1

theorem resolves_statement (hb : b ∈ blocksOf (Token.scan source)) {st : Statement}
    (hst : st ∈ b.statements) (ht : t ∈ st.tokens) : t.span.Resolves source.toList :=
  resolves_kept (mem_kept source (mem_flatMap_of_mem hb hst) ht)

theorem resolves_valueSpan {equals : Token} {value : List Token}
    (h : ∀ t ∈ equals :: value, t.span.Resolves source.toList) :
    (valueSpan equals value).Resolves source.toList := by
  cases value with
  | nil =>
    obtain ⟨-, j, -, hj⟩ := h equals mem_cons_self
    exact ⟨j, j, hj, hj⟩
  | cons first rest =>
    have e := getLast?_eq_some_getLast (cons_ne_nil first rest)
    obtain ⟨i, -, hi, -⟩ := h first (by simp)
    obtain ⟨-, j, -, hj⟩ := h _ (mem_cons_of_mem _ (mem_of_getLast? e))
    exact ⟨i, j, hi, hj⟩

section

variable {b : Block} (hb : b ∈ blocksOf (Token.scan source)) {st : Statement}
  (hst : st ∈ b.statements) {key : String} {p : Property} (e : st.property? = some (key, p))

include hb hst e

theorem resolves_property :
    p.nameSpan.toSpan.Resolves source.toList ∧ p.valueSpan.Resolves source.toList := by
  cases st with
  | assignment name equals value ending due =>
    obtain ⟨-, rfl⟩ := Prod.mk.inj (Option.some.inj e)
    have tokens := fun t ht => resolves_statement hb hst (t := t) ht
    exact ⟨tokens name mem_cons_self,
      resolves_valueSpan fun t ht => tokens t (mem_cons_of_mem _ ht)⟩
  | bareName name => simp [Statement.property?] at e
  | stray token => simp [Statement.property?] at e

/-- Places counted inside a value have an address, and so has a count beyond its end, which
leads to the end. -/
theorem spot_value (i : Nat) :
    ∃ n, Spot source.toList (p.valueSpan.start.shift (Position.within p.value.toList i)) n := by
  -- without a value there is no text to walk along, and every count leads to the start
  by_cases hv : p.value = ""
  · obtain ⟨n, -, hn, -⟩ := (resolves_property hb hst e).2
    refine ⟨n, ?_⟩
    rw [hv, Position.shift_within]
    simpa using hn
  · obtain ⟨x, y, x', y', exy, walk, span⟩ := value_walk hb hst e hv
    obtain ⟨pre, post, eab, here, place, -⟩ := walk.place (Nat.min_le_right i p.value.toList.length)
    refine ⟨pre.length, ?_⟩
    rw [span, Position.shift_within, take_eq_take_min, ← place]
    exact spot_append (eab.trans exy) here

theorem resolves_range (r : CharRange) :
    (r.toSpan p.value.toList p.valueSpan.start).Resolves source.toList := by
  obtain ⟨i, hi⟩ := spot_value hb hst e r.start
  obtain ⟨j, hj⟩ := spot_value hb hst e (max r.stop r.start)
  exact ⟨i, j, hi, hj⟩

end

/-! ## Messages with their places -/

/-- A message about a span whose ends have an address, with corrections on the span or at its
end. -/
def Message.Placed (text : List Char) (m : Message) : Prop :=
  ∃ span, m.span = some span ∧ span.Resolves text ∧
    ∀ c ∈ m.corrections, c.span = span ∨ c.span = .point span.stop

theorem placed_plain {text : List Char} {span : Span} (hm : m.span = some span)
    (h : span.Resolves text) (plain : m.corrections = []) : m.Placed text :=
  ⟨span, hm, h, by simp [plain]⟩

theorem Message.Placed.resolves {text : List Char} {m : Message} (h : m.Placed text)
    {c : Correction} (hc : c ∈ m.corrections) : c.span.Resolves text := by
  obtain ⟨span, -, resolves, fixes⟩ := h
  rcases fixes c hc with e | e
  · rwa [e]
  · obtain ⟨-, j, -, hj⟩ := resolves
    rw [e]
    exact ⟨j, j, hj, hj⟩

/-- What is offered in place of a span stands on it. -/
theorem offered_span {offer : Option String} {span : Span} {f : String → String} {c : Correction}
    (h : c ∈ (offer.map fun text => Correction.mk file span (f text)).toList) : c.span = span := by
  obtain ⟨text, -, rfl⟩ := Option.map_eq_some_iff.1 (Option.mem_toList.1 h)
  rfl

theorem placed_block (hb : b ∈ blocksOf (Token.scan source)) (h : AboutBlock file b m) :
    m.Placed source.toList := by
  have tokens := fun t ht => resolves_kept (mem_flatMap_of_mem (b := t) hb ht)
  cases h with
  | unnamed => exact placed_plain rfl (tokens _ mem_cons_self) rfl
  | @unclosed name hn =>
    refine ⟨name.span, rfl, tokens name ?_, ?_⟩
    · simp [Block.tokens, hn, Heading.tokens]
    · simp [Correction.insert]
  | @unended key equals value ending due hst =>
    refine ⟨valueSpan equals value, rfl, resolves_valueSpan fun t ht => ?_, ?_⟩
    · exact resolves_statement hb hst (mem_cons_of_mem key ht)
    · simp [Correction.insert]
  | bare hst => exact placed_plain rfl (resolves_statement hb hst mem_cons_self) rfl
  | stray hst => exact placed_plain rfl (resolves_statement hb hst mem_cons_self) rfl

theorem placed_text (h : AboutText file (Token.scan source) m) : m.Placed source.toList := by
  cases h with
  | @stray t ht newline comment =>
    obtain ⟨hscan, solid⟩ := stray_solid ht newline comment
    exact placed_plain rfl (resolves_token hscan solid) rfl
  | block hb h => exact placed_block hb h

theorem placed_property (hb : b ∈ blocksOf (Token.scan source)) {st : Statement}
    (hst : st ∈ b.statements) {key : String} {p : Property} (e : st.property? = some (key, p))
    {schema : Schema} {options : Options} {o : Object} {c : ObjectClass} {stored : String}
    (h : AboutProperty schema options o c (stored, p) m) : m.Placed source.toList := by
  have name := (resolves_property hb hst e).1
  cases h with
  | unknown => exact ⟨_, rfl, name, fun fix hfix => Or.inl (offered_span hfix)⟩
  | repeated => exact placed_plain rfl name rfl
  | marked => exact ⟨_, rfl, name, by simp⟩
  | @value _ issue =>
    exact ⟨_, rfl, resolves_range hb hst e issue.range, fun fix hfix =>
      Or.inl (offered_span (f := id) hfix)⟩

/-- Every message of a file has its place in it. -/
theorem placed_of_reported {schema : Schema} {options : Options}
    (h : Reported schema options source file m) : m.Placed source.toList := by
  have typeSpan {o : Object} (ho : o ∈ (Document.parse source file).objects) :
      o.typeSpan.toSpan.Resolves source.toList := by
    obtain ⟨b, hb, name, closed, hn, -, span, -⟩ := object_origin ho
    rw [span]
    refine resolves_kept (mem_flatMap_of_mem hb ?_)
    simp [Block.tokens, hn, Heading.tokens]
  have spans {o : Object} {k : String} {p : Property}
      (ho : o ∈ (Document.parse source file).objects) (hp : (k, p) ∈ o.properties) :
      p.nameSpan.toSpan.Resolves source.toList ∧ p.valueSpan.Resolves source.toList := by
    obtain ⟨b, hb, -, -, -, -, -, -, origin⟩ := object_origin ho
    obtain ⟨st, hst, key, n, e, -⟩ := origin k p hp
    exact resolves_property hb hst e
  cases h with
  | text h => exact placed_text h
  | unknown ho h =>
    exact ⟨_, rfl, typeSpan ho, fun fix hfix => Or.inl (offered_span (f := id) hfix)⟩
  | object ho span plain => exact placed_plain span (typeSpan ho) plain
  | key ho hp span plain => exact placed_plain span (spans ho hp).1 plain
  | property ho hp hc h =>
    obtain ⟨b, hb, -, -, -, -, -, -, origin⟩ := object_origin ho
    obtain ⟨st, hst, key, n, e, -⟩ := origin _ _ hp
    exact placed_property hb hst e h
  | identifier ho hp span plain => exact placed_plain span (spans ho hp).2 plain

end

end ModCheck
