import ModCheck.Proofs.Edits
import ModCheck.Proofs.MessagePlaces
import ModCheck.Proofs.ValueReplacements

/-
  Applying all corrections of a validation. Every correction is made on one stretch of the file, a
  type name or a statement (`fix_of_reported`). On one stretch the corrections are the same or keep
  apart: the key, the replacements inside the value and the semicolon behind it follow each other.
  Stretches follow each other too, so applying the corrections never fails, and what it leaves out
  is made by another, equal one (`fix_run_keeps_all`).
-/

namespace ModCheck

open List

variable {c fix : Correction} {m : Message} {s : Stretch} {source : String} {text : List Char}

/-! ## Corrections that can be made together -/

/-- Whether a span ends before another starts; two empty ones are not at the same place. -/
def Span.Before (s s' : Span) : Prop :=
  s.stop ≤ s'.start ∧ s.start < s'.stop

/-- Two corrections that are the same or keep apart. -/
def Correction.Agrees (c d : Correction) : Prop :=
  c = d ∨ c.span.Before d.span ∨ d.span.Before c.span

theorem Correction.Agrees.symm {d : Correction} (h : c.Agrees d) : d.Agrees c := by
  rcases h with h | h | h
  · exact Or.inl h.symm
  · exact Or.inr (Or.inr h)
  · exact Or.inr (Or.inl h)

/-- Corrections of which any two agree. -/
def Agreeing (cs : List Correction) : Prop :=
  ∀ c ∈ cs, ∀ d ∈ cs, c.Agrees d

theorem agreeing_toList (c : Option Correction) : Agreeing c.toList := by
  intro a ha b hb
  have e := (Option.mem_toList.1 ha).symm.trans (Option.mem_toList.1 hb)
  exact Or.inl (Option.some.inj e)

theorem Agreeing.append {cs ds : List Correction} (hc : Agreeing cs) (hd : Agreeing ds)
    (cross : ∀ c ∈ cs, ∀ d ∈ ds, c.Agrees d) : Agreeing (cs ++ ds) := by
  intro a ha b hb
  rcases mem_append.1 ha with ha | ha <;> rcases mem_append.1 hb with hb | hb
  · exact hc a ha b hb
  · exact cross a ha b hb
  · exact (cross b hb a ha).symm
  · exact hd a ha b hb

/-! ## Keys -/

theorem Key.base_plusKey (key : String) (n : Nat) : Key.base (plusKey key n) = Key.base key := by
  have e : (plusKey key n).toList.reverse.dropWhile (· == '+') =
      key.toList.reverse.dropWhile (· == '+') := by
    rw [plusKey, String.toList_append, String.toList_ofList, reverse_append,
      dropWhile_append_of_pos]
    intro c hc
    rw [reverse_replicate] at hc
    simp [eq_of_mem_replicate hc]
  unfold Key.base baseChars
  rw [e]

/-- Whether a key has the mark that replaces a list. -/
def Key.isMarked (key : String) : Bool :=
  key.toList.head? == some '!'

theorem Key.isMarked_plusKey (key : String) (n : Nat) :
    Key.isMarked (plusKey key n) = Key.isMarked key := by
  unfold Key.isMarked
  rw [plusKey, String.toList_append, String.toList_ofList]
  cases key.toList with
  | nil => cases n <;> rfl
  | cons c cs => rfl

/-! ## Stretches -/

section

variable (schema : Schema) (options : Options) (file : String)

/-- Tokens that stand together, and the corrections made on them. -/
structure Stretch where
  tokens : List Token
  fixes : List Correction

/-- What is offered for a key that is no field. -/
def keyOffer (c : ObjectClass) (key : String) (p : Property) : Option Correction :=
  (bestName (suggest (Key.base key) c.concreteNames options.maxDistance)).map fun name =>
    ⟨file, p.nameSpan.toSpan, (if Key.isMarked key then "!" else "") ++ name⟩

/-- What is offered for a key that need not be marked. -/
def markOffer (field : Field) (key : String) (p : Property) : Option Correction :=
  if Key.isMarked key && !field.type.isList then some ⟨file, p.nameSpan.toSpan, Key.base key⟩
  else none

/-- The corrections inside the value of a field. -/
def valueFixes (field : Field) (key : String) (p : Property) : List Correction :=
  (replacements (valueIssues schema options (Key.base key) p.value field)).map fun r =>
    ⟨file, r.1.toSpan p.value.toList p.valueSpan.start, r.2⟩

/-- The corrections of a property of a class. -/
def propertyFixes (c : Option ObjectClass) (key : String) (p : Property) : List Correction :=
  match c with
  | none => []
  | some c =>
    match c.field? (Key.base key) with
    | none => (keyOffer options file c key p).toList
    | some field =>
      (markOffer file field key p).toList ++ valueFixes schema options file field key p

/-- The class that the properties below a heading belong to. -/
def Heading.class? : Heading → Option ObjectClass
  | .unnamed => none
  | .named name _ => schema.objects.classOfType? name.text

def Statement.fixes (c : Option ObjectClass) (st : Statement) : List Correction :=
  (match st.property? with
    | none => []
    | some (key, p) => propertyFixes schema options file c key p) ++
      (st.messages file).flatMap (·.corrections)

/-- What is offered for a type name. -/
def typeOffer (name : Token) : Option Correction :=
  (bestName (suggest name.text schema.objects.typeNames options.maxDistance)).map fun text =>
    ⟨file, name.span, text⟩

def Heading.stretches : Heading → List Stretch
  | .unnamed => []
  | .named name closed =>
    [⟨[name], (typeOffer schema options file name).toList ++
      if closed then [] else [.insert file name.stop "]"]⟩]

def Block.stretches (b : Block) : List Stretch :=
  b.heading.stretches schema options file ++ b.statements.map fun st =>
    ⟨st.tokens, st.fixes schema options file (b.heading.class? schema)⟩

/-- The stretches of a file, in order. -/
def stretchesOf (ts : List Token) : List Stretch :=
  (blocksOf ts).flatMap (Block.stretches schema options file)

theorem stretches_sublist (ts : List Token) :
    ((stretchesOf schema options file ts).flatMap Stretch.tokens).Sublist
      ((blocksOf ts).flatMap Block.tokens) := by
  rw [stretchesOf, flatMap_assoc]
  apply List.Sublist.flatMap_right
  intro b _
  have heading : (b.heading.stretches schema options file).flatMap Stretch.tokens =
      b.heading.tokens := by
    cases b.heading <;> rfl
  rw [Block.stretches, flatMap_append, heading, flatMap_map]
  exact sublist_cons_self _ _

/-! ## Every correction is made on a stretch -/

variable {schema options file}

theorem mem_propertyFixes {o : Object} {c : ObjectClass} {key : String} {n : Nat} {p : Property}
    (h : AboutProperty schema options o c (plusKey key n, p) m) (hfix : fix ∈ m.corrections) :
    fix ∈ propertyFixes schema options o.file (some c) key p := by
  have marked : ((plusKey key n).toList.head? == some '!') = Key.isMarked key :=
    Key.isMarked_plusKey key n
  unfold propertyFixes
  dsimp only
  cases h with
  | unknown hf =>
    rw [Key.base_plusKey] at hf
    rw [hf]
    unfold unknownProperty at hfix
    rwa [marked, Key.base_plusKey] at hfix
  | repeated => simp [Message.about] at hfix
  | marked hf single hm =>
    rw [Key.base_plusKey] at hf hfix
    rw [hf]
    refine mem_append_left _ ?_
    rw [markOffer, if_pos (by simp [← marked, hm, single])]
    exact hfix
  | @value field issue hf hi =>
    rw [Key.base_plusKey] at hf hi
    rw [hf]
    obtain ⟨text, ht, rfl⟩ := Option.map_eq_some_iff.1 (Option.mem_toList.1 hfix)
    exact mem_append_right _
      (mem_map.2 ⟨(issue.range, text), mem_replacements.2 ⟨issue, hi, rfl, ht⟩, rfl⟩)

theorem fix_of_text (h : AboutText file (Token.scan source) m) (hfix : fix ∈ m.corrections) :
    ∃ s ∈ stretchesOf schema options file (Token.scan source), fix ∈ s.fixes := by
  cases h with
  | stray => simp [Message.about] at hfix
  | @block b _ hb h =>
    cases h with
    | @unclosed name hn =>
      obtain ⟨s, hs, hfix⟩ : ∃ s ∈ b.heading.stretches schema options file, fix ∈ s.fixes := by
        rw [hn]
        exact ⟨_, mem_singleton.2 rfl, mem_append_right _ hfix⟩
      exact ⟨s, mem_flatMap_of_mem hb (mem_append_left _ hs), hfix⟩
    | unended hst fires =>
      refine ⟨_, mem_flatMap_of_mem hb (mem_append_right _ (mem_map_of_mem hst)),
        mem_append_right _ (mem_flatMap_of_mem ?_ hfix)⟩
      rw [Statement.messages, if_pos fires]
      exact mem_singleton_self _
    | _ => simp [Message.about] at hfix

theorem fix_of_reported (h : Reported schema options source file m) (hfix : fix ∈ m.corrections) :
    ∃ s ∈ stretchesOf schema options file (Token.scan source), fix ∈ s.fixes := by
  have plainly {m : Message} (plain : m.corrections = []) (hfix : fix ∈ m.corrections) : False := by
    simp [plain] at hfix
  cases h with
  | text h => exact fix_of_text h hfix
  | unknown ho hnone =>
    obtain ⟨b, hb, name, closed, hn, hname, hspan, hfile, -⟩ := object_origin ho
    unfold unknownType at hfix
    rw [hname, hspan, hfile] at hfix
    obtain ⟨s, hs, hfix⟩ : ∃ s ∈ b.heading.stretches schema options file, fix ∈ s.fixes := by
      rw [hn]
      exact ⟨_, mem_singleton.2 rfl, mem_append_left _ hfix⟩
    exact ⟨s, mem_flatMap_of_mem hb (mem_append_left _ hs), hfix⟩
  | object ho span plain => exact (plainly plain hfix).elim
  | key ho hp span plain => exact (plainly plain hfix).elim
  | property ho hp hc h =>
    obtain ⟨b, hb, name, closed, hn, hname, -, hfile, origin⟩ := object_origin ho
    obtain ⟨st, hst, key, n, e, rfl⟩ := origin _ _ hp
    refine ⟨_, mem_flatMap_of_mem hb (mem_append_right _ (mem_map_of_mem hst)),
      mem_append_left _ ?_⟩
    rw [hname] at hc
    rw [e, hn, Heading.class?, hc, ← hfile]
    exact mem_propertyFixes h hfix
  | identifier ho hp span plain => exact (plainly plain hfix).elim

/-! ## Ranges inside a value -/

/-- A span that lies in `lo` up to `hi` and does not end where that starts. -/
structure Span.On (s : Span) (lo hi : Position) : Prop where
  lower : lo ≤ s.start
  ordered : s.start ≤ s.stop
  upper : s.stop ≤ hi
  after : lo < s.stop

theorem CharRange.Inside.toSpan_on {r : CharRange} (h : r.Inside 0 text.length)
    (origin : Position) :
    (r.toSpan text origin).On origin (origin.after text) ∧
      (r.toSpan text origin).start < origin.after text := by
  have whole := take_length (l := text)
  have start := Position.after_take_lt origin text h.before h.before
  have stop := Position.after_take_le origin text h.upper
  have after := Position.after_take_lt origin text h.after (Nat.lt_of_le_of_lt h.lower h.before)
  rw [whole] at start stop
  rw [CharRange.toSpan_eq h.ordered]
  exact ⟨⟨Position.le_after _ _, Position.after_take_le origin text h.ordered, stop, after⟩, start⟩

theorem CharRange.Before.toSpan {r s : CharRange} (h : r.Before s) (hr : r.Inside 0 text.length)
    (hs : s.Inside 0 text.length) (origin : Position) :
    (r.toSpan text origin).Before (s.toSpan text origin) := by
  rw [CharRange.toSpan_eq hr.ordered, CharRange.toSpan_eq hs.ordered]
  exact ⟨Position.after_take_le origin text h.1, Position.after_take_lt origin text h.2 hr.before⟩

/-! ## Corrections on one stretch -/

/-- The corrections of a stretch lie on its tokens and agree. -/
structure Stretch.Sound (s : Stretch) : Prop where
  inside : ∀ c ∈ s.fixes, ∃ first ∈ s.tokens, ∃ last ∈ s.tokens, c.span.On first.start last.stop
  agree : Agreeing s.fixes

theorem sound_heading {b : Block} (hb : b ∈ blocksOf (Token.scan source))
    (hs : s ∈ b.heading.stretches schema options file) : s.Sound := by
  cases hh : b.heading with
  | unnamed => simp [hh, Heading.stretches] at hs
  | named name closed =>
    rw [hh] at hs
    obtain rfl := mem_singleton.1 hs
    have hlt : name.start < name.stop := by
      refine kept_start_lt_stop source (mem_flatMap_of_mem hb ?_)
      simp [Block.tokens, hh, Heading.tokens]
    have offer : ∀ c ∈ (typeOffer schema options file name).toList, c.span = name.span :=
      fun c hc => offered_span (f := id) hc
    have bracket : ∀ c ∈ (if closed then [] else [Correction.insert file name.stop "]"]),
        c = .insert file name.stop "]" := by
      cases closed <;> simp
    refine ⟨fun c hc => ⟨name, mem_singleton.2 rfl, name, mem_singleton.2 rfl, ?_⟩, ?_⟩
    · rcases mem_append.1 hc with hc | hc
      · rw [offer c hc]
        exact ⟨le_refl _, hlt.le, le_refl _, hlt⟩
      · rw [bracket c hc]
        exact ⟨hlt.le, le_refl _, le_refl _, hlt⟩
    · refine (agreeing_toList _).append ?_ ?_
      · intro c hc d hd
        exact Or.inl ((bracket c hc).trans (bracket d hd).symm)
      · intro c hc d hd
        right
        left
        rw [offer c hc, bracket d hd]
        exact ⟨le_refl _, hlt⟩

/-- The key of a property is the token `name`, and its value comes after that and ends with the
token `last`. -/
structure Property.Between (p : Property) (name last : Token) : Prop where
  key : p.nameSpan.toSpan = name.span
  keyEnds : name.start < name.stop
  follows : name.stop ≤ p.valueSpan.start
  ordered : p.valueSpan.start ≤ p.valueSpan.stop
  ends : p.valueSpan.stop = last.stop

theorem property_between {st : Statement} (hst : st ∈ statementsOf (Token.scan source))
    {key : String} {p : Property} (e : st.property? = some (key, p)) :
    ∃ name ∈ st.tokens, ∃ last ∈ st.tokens, p.Between name last := by
  have apart := tokens_apart source hst
  have lt := fun t ht => kept_start_lt_stop source (mem_kept source hst (t := t) ht)
  cases st with
  | assignment name equals value ending due =>
    obtain ⟨-, rfl⟩ := Prod.mk.inj (Option.some.inj e)
    obtain ⟨first, rest⟩ := pairwise_cons.1 apart
    have hname : name.start < name.stop := lt name mem_cons_self
    have hequals : equals ∈ equals :: value := mem_cons_self
    cases value with
    | nil =>
      refine ⟨name, mem_cons_self, equals, mem_cons_of_mem _ hequals, rfl, hname, ?_,
        le_refl _, rfl⟩
      exact (first equals hequals).trans (lt equals (mem_cons_of_mem _ hequals)).le
    | cons v vs =>
      have hlast := getLast?_eq_some_getLast (cons_ne_nil v vs)
      generalize (v :: vs).getLast (cons_ne_nil v vs) = last at hlast
      have span : valueSpan equals (v :: vs) = ⟨v.start, last.stop⟩ := by
        rw [valueSpan, hlast]
        rfl
      have hv : v ∈ equals :: v :: vs := by simp
      have hmem : last ∈ equals :: v :: vs :=
        mem_cons_of_mem _ (mem_of_getLast? hlast)
      have hle : v.start ≤ last.stop := by
        have hvlt := lt v (mem_cons_of_mem _ hv)
        rcases mem_cons.1 (mem_of_getLast? hlast) with rfl | hvs
        · exact hvlt.le
        · have next := (pairwise_cons.1 (pairwise_cons.1 rest).2).1 last hvs
          exact (hvlt.le.trans next).trans (lt last (mem_cons_of_mem _ hmem)).le
      refine ⟨name, mem_cons_self, last, mem_cons_of_mem _ hmem, ?_⟩
      rw [span]
      exact ⟨rfl, hname, first v hv, hle, rfl⟩
  | bareName name => simp [Statement.property?] at e
  | stray token => simp [Statement.property?] at e

section

variable (schema options file)
variable {source : String} {b : Block} (hb : b ∈ blocksOf (Token.scan source)) {st : Statement}
  (hst : st ∈ b.statements) {key : String} {p : Property} (e : st.property? = some (key, p))

include hb hst e

/-- The corrections inside a value agree and lie on it, and none starts at its end. -/
theorem agreeing_valueFixes (field : Field) :
    Agreeing (valueFixes schema options file field key p) ∧
      ∀ d ∈ valueFixes schema options file field key p,
        d.span.On p.valueSpan.start p.valueSpan.stop ∧ d.span.start < p.valueSpan.stop := by
  obtain ⟨inside, apart⟩ := compatible_valueIssues schema options (Key.base key) p.value field
  constructor
  · intro c hc d hd
    obtain ⟨r, hr, rfl⟩ := mem_map.1 hc
    obtain ⟨s, hs, rfl⟩ := mem_map.1 hd
    have hri := inside r hr
    have hsi := inside s hs
    rcases apart r hr s hs with rfl | h | h
    · exact Or.inl rfl
    · exact Or.inr (Or.inl (h.toSpan hri hsi p.valueSpan.start))
    · exact Or.inr (Or.inr (h.toSpan hsi hri p.valueSpan.start))
  · intro d hd
    obtain ⟨r, hr, rfl⟩ := mem_map.1 hd
    have hri := inside r hr
    -- an empty value has no room for a replacement
    have hv : p.value ≠ "" := by
      intro hv
      rw [hv] at hri
      exact absurd hri.before (Nat.not_lt_zero _)
    rw [value_stop hb hst e hv]
    exact hri.toSpan_on p.valueSpan.start

/-- The corrections of a property agree and lie between its key and the end of its value, and none
starts at that end. -/
theorem agreeing_propertyFixes {name last : Token} (between : p.Between name last)
    (c : Option ObjectClass) :
    Agreeing (propertyFixes schema options file c key p) ∧
      ∀ d ∈ propertyFixes schema options file c key p,
        d.span.On name.start p.valueSpan.stop ∧ d.span.start < p.valueSpan.stop := by
  have hname := between.keyEnds
  have hend : name.stop ≤ p.valueSpan.stop := between.follows.trans between.ordered
  have onName {d : Correction} (hd : d.span = p.nameSpan.toSpan) :
      d.span.On name.start p.valueSpan.stop ∧ d.span.start < p.valueSpan.stop := by
    rw [hd, between.key]
    exact ⟨⟨le_refl _, hname.le, hend, hname⟩, hname.trans_le hend⟩
  unfold propertyFixes
  split
  · exact ⟨by simp [Agreeing], by simp⟩
  split
  · exact ⟨agreeing_toList _, fun d hd => onName (offered_span hd)⟩
  · next field hfield =>
    obtain ⟨agree, inside⟩ := agreeing_valueFixes schema options file hb hst e field
    have marks : ∀ d ∈ (markOffer file field key p).toList, d.span = p.nameSpan.toSpan := by
      unfold markOffer
      split <;> simp
    constructor
    · refine (agreeing_toList _).append agree fun c hc d hd => Or.inr (Or.inl ?_)
      obtain ⟨on, -⟩ := inside d hd
      rw [marks c hc, between.key]
      exact ⟨between.follows.trans on.lower, (hname.trans_le between.follows).trans on.after⟩
    · intro d hd
      rcases mem_append.1 hd with hd | hd
      · exact onName (marks d hd)
      · obtain ⟨on, start⟩ := inside d hd
        have hle := hname.le.trans between.follows
        exact ⟨⟨hle.trans on.lower, on.ordered, on.upper, hle.trans_lt on.after⟩, start⟩

end

/-- A statement has one correction of its own at most, at the end of its value. -/
theorem statement_corrections (file : String) (st : Statement) :
    ∃ offer : Option Correction, (st.messages file).flatMap (·.corrections) = offer.toList ∧
      ∀ c ∈ offer, ∃ key p, st.property? = some (key, p) ∧ c.span = .point p.valueSpan.stop := by
  cases st with
  | assignment name equals value ending due =>
    unfold Statement.messages
    dsimp only
    split
    · refine ⟨some (.insert file (valueSpan equals value).stop ";"), rfl, ?_⟩
      intro c hc
      obtain rfl := Option.some.inj hc
      exact ⟨_, _, rfl, rfl⟩
    · exact ⟨none, rfl, by simp⟩
  | bareName name => exact ⟨none, rfl, by simp⟩
  | stray token => exact ⟨none, rfl, by simp⟩

theorem sound_statement {b : Block} (hb : b ∈ blocksOf (Token.scan source)) {st : Statement}
    (hst : st ∈ b.statements) (c : Option ObjectClass) :
    (Stretch.mk st.tokens (st.fixes schema options file c)).Sound := by
  obtain ⟨offer, eoffer, hoffer⟩ := statement_corrections file st
  unfold Statement.fixes
  rw [eoffer]
  cases e : st.property? with
  | none =>
    have none : offer = none := by
      cases offer with
      | none => rfl
      | some fix =>
        obtain ⟨key, p, hp, -⟩ := hoffer fix rfl
        simp [e] at hp
    rw [none]
    exact ⟨by simp, by simp [Agreeing]⟩
  | some q =>
    obtain ⟨key, p⟩ := q
    obtain ⟨name, hname, last, hlast, between⟩ :=
      property_between (mem_flatMap_of_mem hb hst) e
    have semicolon : ∀ d ∈ offer.toList, d.span = .point p.valueSpan.stop := by
      intro d hd
      obtain ⟨key', p', hp, span⟩ := hoffer d (Option.mem_toList.1 hd)
      obtain ⟨-, rfl⟩ := Prod.mk.inj (Option.some.inj (e.symm.trans hp))
      exact span
    -- the semicolon goes to the very end of the value, where no other correction starts
    obtain ⟨agree, inside⟩ := agreeing_propertyFixes schema options file hb hst e between c
    constructor
    · intro d hd
      refine ⟨name, hname, last, hlast, ?_⟩
      rw [← between.ends]
      rcases mem_append.1 hd with hd | hd
      · exact (inside d hd).1
      · have hle := between.follows.trans between.ordered
        rw [semicolon d hd]
        exact ⟨between.keyEnds.le.trans hle, le_refl _, le_refl _, between.keyEnds.trans_le hle⟩
    · refine agree.append (agreeing_toList _) fun c hc d hd => Or.inr (Or.inl ?_)
      obtain ⟨on, start⟩ := inside c hc
      rw [semicolon d hd]
      exact ⟨on.upper, start⟩

theorem sound_stretch (hs : s ∈ stretchesOf schema options file (Token.scan source)) : s.Sound := by
  obtain ⟨b, hb, hs⟩ := mem_flatMap.1 hs
  rcases mem_append.1 hs with hs | hs
  · exact sound_heading hb hs
  · obtain ⟨st, hst, rfl⟩ := mem_map.1 hs
    exact sound_statement hb hst _

/-! ## Corrections of a whole file -/

/-- Corrections of one file agree: on different stretches the tokens keep them apart. -/
theorem agrees_of_stretches {s' : Stretch}
    (hs : s ∈ stretchesOf schema options file (Token.scan source))
    (hs' : s' ∈ stretchesOf schema options file (Token.scan source)) {d : Correction}
    (hc : c ∈ s.fixes) (hd : d ∈ s'.fixes) : c.Agrees d := by
  have apart := (pairwise_flatMap.1
    ((kept_apart source).sublist (stretches_sublist schema options file _))).2
  obtain ⟨first, hfirst, last, hlast, on⟩ := (sound_stretch hs).inside c hc
  obtain ⟨first', hfirst', last', hlast', on'⟩ := (sound_stretch hs').inside d hd
  -- a stretch may be named twice; two different ones are kept apart by their tokens
  by_cases e : s = s'
  · subst e
    exact (sound_stretch hs).agree c hc d hd
  · rcases related_of_pairwise apart hs hs' e with h | h
    · have between := on.upper.trans (h last hlast first' hfirst')
      refine Or.inr (Or.inl ⟨between.trans on'.lower, ?_⟩)
      exact (on.ordered.trans between).trans_lt on'.after
    · have between := on'.upper.trans (h last' hlast' first hfirst)
      refine Or.inr (Or.inr ⟨between.trans on.lower, ?_⟩)
      exact (on'.ordered.trans between).trans_lt on.after

end

/-! ## Edits of the text -/

/-- An edit whose characters are those between the ends of its span. -/
structure Edit.Fits (text : List Char) (e : Edit) : Prop where
  start : Spot text e.correction.span.start e.start
  stop : Spot text e.correction.span.stop e.stop
  ordered : e.correction.span.start ≤ e.correction.span.stop

/-- A correction on a span that resolves is found in the text. -/
theorem exists_fitting (h : c.span.Resolves text) (ordered : c.span.start ≤ c.span.stop) :
    ∃ e : Edit, Edit.locate text c = .ok e ∧ e.Fits text ∧ e.correction = c := by
  obtain ⟨i, j, hi, hj⟩ := h
  exact ⟨⟨i, j, c⟩, Edit.locate_eq_ok (isOrdered_iff.2 ordered) hi.index?_eq hj.index?_eq,
    ⟨hi, hj, ordered⟩, rfl⟩

/-- Of corrections that agree only equal ones collide. -/
theorem Edit.Fits.eq_of_conflicts {a b : Edit} (ha : a.Fits text) (hb : b.Fits text)
    (h : a.correction.Agrees b.correction) (hab : a.conflicts b = true) :
    a.correction = b.correction := by
  have hastart := ha.start.le ha.stop ha.ordered
  have hbstart := hb.start.le hb.stop hb.ordered
  rcases h with h | h | h
  · exact h
  · have := Edit.conflicts_eq_false hbstart
      (Or.inl ⟨ha.stop.le hb.start h.1, ha.start.lt hb.stop h.2⟩)
    simp [this] at hab
  · have := Edit.conflicts_eq_false hbstart
      (Or.inr ⟨hb.stop.le ha.start h.1, hb.start.lt ha.stop h.2⟩)
    simp [this] at hab

/-! ## The corrections of a validation -/

section

variable {schema : Schema} {options : Options} {source file : String} {c d : Correction}

theorem exists_stretch (hc : c ∈ (validate schema options [⟨file, source⟩]).corrections) :
    ∃ s ∈ stretchesOf schema options file (Token.scan source), c ∈ s.fixes := by
  obtain ⟨m, hm, hc⟩ := mem_flatMap.1 hc
  exact fix_of_reported (reported_validate hm) hc

theorem agrees_of_found (hc : c ∈ (validate schema options [⟨file, source⟩]).corrections)
    (hd : d ∈ (validate schema options [⟨file, source⟩]).corrections) : c.Agrees d := by
  obtain ⟨s, hs, hc⟩ := exists_stretch hc
  obtain ⟨s', hs', hd⟩ := exists_stretch hd
  exact agrees_of_stretches hs hs' hc hd

theorem exists_edit (hc : c ∈ (validate schema options [⟨file, source⟩]).corrections) :
    ∃ e : Edit, Edit.locate source.toList c = .ok e ∧ e.Fits source.toList ∧ e.correction = c := by
  obtain ⟨s, hs, hfix⟩ := exists_stretch hc
  obtain ⟨first, -, last, -, on⟩ := (sound_stretch hs).inside c hfix
  obtain ⟨m, hm, hmc⟩ := mem_flatMap.1 hc
  exact exists_fitting ((placed_of_reported (reported_validate hm)).resolves hmc) on.ordered

/-- The corrections of a validation as edits, of which only equal ones collide. -/
theorem exists_edits (schema : Schema) (options : Options) (source file : String) :
    ∃ edits : List Edit,
      (validate schema options [⟨file, source⟩]).corrections.mapM (Edit.locate source.toList) =
        .ok edits ∧
      ∀ a ∈ edits, ∀ b ∈ edits, a.conflicts b = true → a.correction = b.correction := by
  have located : ∀ c ∈ (validate schema options [⟨file, source⟩]).corrections,
      ∃ e, Edit.locate source.toList c = .ok e := by
    intro c hc
    obtain ⟨e, he, -⟩ := exists_edit hc
    exact ⟨e, he⟩
  obtain ⟨edits, hedits, origin⟩ := exists_mapM_eq_ok located
  have fits : ∀ e ∈ edits, e.Fits source.toList ∧
      e.correction ∈ (validate schema options [⟨file, source⟩]).corrections := by
    intro e he
    obtain ⟨c, hc, hlocate⟩ := origin e he
    obtain ⟨e', he', fits, rfl⟩ := exists_edit hc
    obtain rfl := Except.ok.inj (hlocate.symm.trans he')
    exact ⟨fits, hc⟩
  refine ⟨edits, hedits, fun a ha b hb => ?_⟩
  obtain ⟨hafits, ha⟩ := fits a ha
  obtain ⟨hbfits, hb⟩ := fits b hb
  exact hafits.eq_of_conflicts hbfits (agrees_of_found ha hb)

end

/-- Applying all corrections of a validation works and loses none of them: they are in order, the
spans of all messages have their addresses, only equal corrections collide, and each one left out
is made by another. -/
theorem fix_run_keeps_all (schema : Schema) (options : Options) (source file : String) :
    let found := validate schema options [⟨file, source⟩]
    (∀ c ∈ found.corrections, c.isOrdered = true) ∧
    (∀ m ∈ found.all, ∃ span i j, m.span = some span ∧
      span.start.byteOffset? source.toList = some i ∧
      span.stop.byteOffset? source.toList = some j) ∧
    ∃ edits plan, found.corrections.mapM (Edit.locate source.toList) = .ok edits ∧
      (∀ a ∈ edits, ∀ b ∈ edits, a.conflicts b = true → a.correction = b.correction) ∧
      plan = edits.foldl Plan.add {} ∧
      Correction.applyAll source found.corrections =
        .ok ⟨String.ofList (plan.run source.toList), plan.accepted.length, plan.skipped⟩ ∧
      ∀ c ∈ plan.skipped, ∃ e ∈ plan.accepted, e.correction = c := by
  intro found
  obtain ⟨edits, hedits, agree⟩ := exists_edits schema options source file
  refine ⟨?_, ?_, edits, _, hedits, agree, rfl, ?_, ?_⟩
  · intro c hc
    obtain ⟨e, -, fits, rfl⟩ := exists_edit hc
    exact isOrdered_iff.2 fits.ordered
  · intro m hm
    obtain ⟨span, hspan, ⟨i, j, hi, hj⟩, -⟩ := placed_of_reported (reported_validate hm)
    exact ⟨span, _, _, hspan, hi.byteOffset?_eq, hj.byteOffset?_eq⟩
  · rw [Correction.applyAll, hedits]
  · have start : ({} : Plan).KeepsAll := fun c hc => absurd hc List.not_mem_nil
    apply start.foldl_add
    rintro a (ha | ha) b hb
    · exact absurd ha List.not_mem_nil
    · exact agree a ha b hb

/-- A schema with one type of objects, whose one key takes a formula of two operators. -/
def chainSchema : Schema :=
  { Schema.empty with
    objects :=
      { types := [⟨"A", .definition, some "A", false, true, [], none⟩]
        classes := [⟨"A", [⟨"k", .formula, false, none, false⟩]⟩]
        enums := [] }
    formulas := ⟨none, Operator.table
      [⟨"f", [], none, false, [[⟨"body", .formula⟩]], [], none, []⟩,
       ⟨"g", [], none, false, [[⟨"x", .numeric⟩, ⟨"y", .numeric⟩]], [], none, []⟩]⟩ }

/-- A comma in a call inside a call, which each of the two operators wants replaced: one correction
is made, and the other, equal one is left out. -/
theorem fix_run_keeps_all_in_chain :
    let source := "[A] k=f:g:1,5;"
    let found := validate chainSchema {} [⟨"f", source⟩]
    let fix : Correction := ⟨"f", ⟨⟨1, 11⟩, ⟨1, 12⟩⟩, ":"⟩
    found.corrections = [fix, fix] ∧
      Correction.applyAll source found.corrections = .ok ⟨"[A] k=f:g:1:5;", 1, [fix]⟩ ∧
      ∃ edits plan, found.corrections.mapM (Edit.locate source.toList) = .ok edits ∧
        plan = edits.foldl Plan.add {} ∧ plan.skipped = [fix] ∧
        ∃ e ∈ plan.accepted, e.correction = fix := by
  intro source found fix
  have corrections : found.corrections = [fix, fix] := by decide +kernel
  have output : Correction.applyAll source [fix, fix] =
      .ok ⟨"[A] k=f:g:1:5;", 1, [fix]⟩ := by decide +kernel
  rw [← corrections] at output
  obtain ⟨-, -, edits, plan, located, -, planned, applied, kept⟩ :=
    fix_run_keeps_all chainSchema {} source "f"
  have skipped : plan.skipped = [fix] :=
    congrArg Corrected.skipped (Except.ok.inj (applied.symm.trans output))
  exact ⟨corrections, output, edits, plan, located, planned, skipped,
    kept fix (by simp [skipped])⟩

end ModCheck
