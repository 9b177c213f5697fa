import Mathlib.Data.List.Nodup
import ModCheck.Proofs.NameFaults

/-
  Corrections of names that are not known. The corrected name is one token of the file, so the file
  is read as before with that one name changed (`wording_reworded`), and the messages about its
  structure keep their codes (`codes_reworded`). What is offered instead is declared, so that the
  message is gone afterwards. Main statement: `renaming_repairs`.
-/

namespace ModCheck

open List

variable {b : Block} {closed due : Bool} {ending : ValueClose} {equals key name t u : Token}
  {file source : String} {o : Object} {value : List Token}

/-! ## Tokens that occur once -/

/-- Parts of a list without repetitions share no member. -/
theorem eq_of_nodup_flatMap {α β : Type} {l : List α} {f : α → List β} (h : (l.flatMap f).Nodup)
    {a b : α} (ha : a ∈ l) (hb : b ∈ l) {x : β} (hx : x ∈ f a) (hx' : x ∈ f b) : a = b := by
  by_contra hne
  rcases related_of_pairwise (pairwise_flatMap.1 h).2 ha hb hne with hd | hd
  · exact hd x hx x hx' rfl
  · exact hd x hx' x hx rfl

section

variable (source : String)

theorem kept_nodup : ((blocksOf (Token.scan source)).flatMap Block.tokens).Nodup := by
  refine (kept_apart source).imp_of_mem fun {a b} ha _ h => ?_
  rintro rfl
  exact absurd (kept_start_lt_stop source ha) h.not_gt

variable {source}

/-- Kept tokens that start in the same place are one. -/
theorem kept_eq_of_start_eq (ht : t ∈ (blocksOf (Token.scan source)).flatMap Block.tokens)
    (hu : u ∈ (blocksOf (Token.scan source)).flatMap Block.tokens) (h : u.start = t.start) :
    u = t := by
  by_contra hne
  rcases related_of_pairwise (kept_apart source) hu ht hne with e | e
  · exact absurd (kept_start_lt_stop source hu) (h ▸ e).not_gt
  · exact absurd (kept_start_lt_stop source ht) (h ▸ e).not_gt

end

/-! ## Names -/

/-- The key of a property. -/
def Statement.key? : Statement → Option Token
  | .assignment key _ _ _ _ => some key
  | _ => none

/-- The type name and the keys of a section. -/
def Block.names (b : Block) : List Token :=
  match b.heading with
  | .named name _ => name :: b.statements.filterMap Statement.key?
  | .unnamed => []

theorem keys_sublist (sts : List Statement) :
    (sts.filterMap Statement.key?).Sublist (sts.flatMap Statement.tokens) := by
  induction sts with
  | nil => exact List.Sublist.refl _
  | cons st sts ih =>
    cases st with
    | assignment key equals value ending due =>
      exact (ih.trans (sublist_append_right _ _)).cons_cons key
    | bareName key => exact ih.cons key
    | stray token => exact ih.cons token

theorem names_sublist (b : Block) : b.names.Sublist b.tokens := by
  unfold Block.names Block.tokens
  split
  · next name closed h =>
    rw [h]
    exact ((keys_sublist b.statements).cons_cons name).cons b.opening
  · exact nil_sublist _

theorem mem_names (h : t ∈ b.names) :
    ∃ name closed, b.heading = .named name closed ∧
      (t = name ∨ ∃ equals value ending due,
        Statement.assignment t equals value ending due ∈ b.statements) := by
  unfold Block.names at h
  split at h
  · next name closed hb =>
    refine ⟨name, closed, hb, (mem_cons.1 h).imp id fun h => ?_⟩
    obtain ⟨st, hst, e⟩ := mem_filterMap.1 h
    cases st with
    | assignment key equals value ending due =>
      obtain rfl := Option.some.inj e
      exact ⟨equals, value, ending, due, hst⟩
    | bareName key => simp [Statement.key?] at e
    | stray token => simp [Statement.key?] at e
  · simp at h

theorem mem_names_heading (h : b.heading = .named name closed) : name ∈ b.names := by
  rw [Block.names, h]
  exact mem_cons_self

theorem mem_names_key (h : b.heading = .named name closed)
    (hst : Statement.assignment key equals value ending due ∈ b.statements) : key ∈ b.names := by
  rw [Block.names, h]
  exact mem_cons_of_mem _ (mem_filterMap.2 ⟨_, hst, rfl⟩)

section

variable {source : String} {b : Block} (hb : b ∈ blocksOf (Token.scan source))

include hb

theorem kept_of_mem_names (ht : t ∈ b.names) :
    t ∈ (blocksOf (Token.scan source)).flatMap Block.tokens :=
  mem_flatMap_of_mem hb ((names_sublist b).subset ht)

/-- The name of a section stands right behind its bracket. -/
theorem heading_place (h : b.heading = .named name closed) :
    name.kind = .identifier ∧ ∃ us vs o, Token.scan source = us ++ name :: vs ∧
      us.getLast? = some o ∧ o.kind = .leftBracket := by
  obtain ⟨s, hs, rfl⟩ := mem_map.1 hb
  obtain ⟨before, after, e, -⟩ := mem_splitSections hs
  obtain ⟨hk, tail, htail, -⟩ := readHeading_named h
  have ho := ((inner_splitSections (Token.scan source)).2 s hs).1
  refine ⟨hk, before ++ [s.opening], tail ++ after, s.opening, ?_, by simp, ho⟩
  rw [e, htail]
  simp

theorem key_kind (hst : Statement.assignment key equals value ending due ∈ b.statements) :
    key.kind = .identifier := by
  obtain ⟨s, hs, rfl⟩ := mem_map.1 hb
  exact (mem_readStatements hst).1

theorem names_isName (ht : t ∈ b.names) : IsName t.text.toList := by
  have hscan : t ∈ Token.scan source := (blocks_sublist _).subset (kept_of_mem_names hb ht)
  apply isName_of_mem_scan hscan
  obtain ⟨name, closed, hn, rfl | ⟨equals, value, ending, due, hst⟩⟩ := mem_names ht
  · exact (heading_place hb hn).1
  · exact key_kind hb hst

/-- A name is no part of a value. -/
theorem not_mem_value_of_mem_names (ht : t ∈ (blocksOf (Token.scan source)).flatMap Block.names)
    (hst : Statement.assignment key equals value ending due ∈ b.statements) : t ∉ value := by
  intro hv
  obtain ⟨b', hb', ht⟩ := mem_flatMap.1 ht
  have hmem : t ∈ (Statement.assignment key equals value ending due).tokens := by
    simp [Statement.tokens, hv]
  have htokens : t ∈ b.tokens :=
    mem_cons_of_mem _ (mem_append_right _ (mem_flatMap_of_mem hst hmem))
  obtain rfl : b' = b :=
    eq_of_nodup_flatMap (kept_nodup source) hb' hb ((names_sublist b').subset ht) htokens
  have hblock := (pairwise_flatMap.1 (kept_nodup source)).1 b' hb
  obtain ⟨-, hblock⟩ := pairwise_cons.1 hblock
  obtain ⟨-, hbody, hapart⟩ := pairwise_append.1 hblock
  obtain ⟨name, closed, hn, rfl | ⟨equals', value', ending', due', hst'⟩⟩ := mem_names ht
  · exact hapart t (by simp [hn, Heading.tokens]) t (mem_flatMap_of_mem hst hmem) rfl
  · have e := eq_of_nodup_flatMap hbody hst hst' hmem (by simp [Statement.tokens])
    obtain ⟨rfl, rfl, rfl, -, -⟩ := Statement.assignment.inj e
    have := (pairwise_flatMap.1 hbody).1 _ hst
    exact (pairwise_cons.1 this).1 key (mem_cons_of_mem _ hv) rfl

end

/-! ## What a file says -/

/-- What an object says: its type name, its keys as they are written, and their values. `f` may
change the names by where they stand. -/
def Object.wording (f : Span → String → String) (o : Object) : String × List (String × String) :=
  (f o.typeSpan.toSpan o.typeName,
   o.properties.map fun q => (f q.2.nameSpan.toSpan (Key.written q.1), q.2.value))

/-- Where the names of an object stand. -/
def Object.nameSpans (o : Object) : List Span :=
  o.typeSpan.toSpan :: o.properties.map fun q => q.2.nameSpan.toSpan

/-- The key, as `f` gives it, and the value of a property. -/
def Statement.wording? (f : Token → String) : Statement → Option (String × String)
  | .assignment key _ value _ _ => some (f key, String.ofList (joinTokens value))
  | _ => none

/-- The names, as `f` gives them, and the values of a section. -/
def Block.wording? (f : Token → String) (b : Block) : Option (String × List (String × String)) :=
  match b.heading with
  | .unnamed => none
  | .named name _ => some (f name, b.statements.filterMap (Statement.wording? f))

/-- What is told of the properties of an object by their written keys. -/
theorem map_zip_storedKeys {β : Type} (g : String → Property → β) {ps : List (String × Property)}
    (h : ∀ q ∈ ps, IsPlainKey q.1) (taken : List String) :
    ((storedKeys taken (ps.map (·.1))).zip (ps.map (·.2))).map (fun q => g (Key.written q.1) q.2) =
      ps.map fun q => g q.1 q.2 := by
  induction ps generalizing taken with
  | nil => rfl
  | cons q ps ih =>
    obtain ⟨hq, hps⟩ := forall_mem_cons.1 h
    obtain ⟨n, hn⟩ := freshKeyFrom_eq taken q.1 taken.length 0
    simp only [map_cons, storedKeys, zip_cons_cons, ih hps]
    rw [freshKey, hn, Key.written_plusKey hq]

theorem heading_of_object?_none (h : b.object? file = none) : b.heading = .unnamed := by
  cases hh : b.heading with
  | unnamed => rfl
  | named name closed => simp [Block.object?, hh] at h

section

variable {source : String} {b : Block} (hb : b ∈ blocksOf (Token.scan source)) (file : String)

include hb

omit file in
/-- The keys of a section with a name have no plus signs of their own. -/
theorem isPlainKey_of_named (h : b.heading = .named name closed) :
    ∀ q ∈ b.statements.filterMap Statement.property?, IsPlainKey q.1 := by
  intro q hq
  obtain ⟨st, hst, e⟩ := mem_filterMap.1 hq
  cases st with
  | assignment key equals value ending due =>
    obtain rfl := Option.some.inj e
    exact (names_isName hb (mem_names_key h hst)).isPlainKey
  | bareName key => simp [Statement.property?] at e
  | stray token => simp [Statement.property?] at e

theorem object?_words {β : Type} (g : String → Property → β) (ho : b.object? file = some o) :
    o.properties.map (fun q => g (Key.written q.1) q.2) =
      (b.statements.filterMap Statement.property?).map fun q => g q.1 q.2 := by
  obtain ⟨opening, heading, statements⟩ := b
  cases heading with
  | unnamed => simp [Block.object?] at ho
  | named name closed =>
    simp only [Block.object?, Option.some.injEq] at ho
    subst ho
    rw [foldl_insert]
    exact map_zip_storedKeys g (isPlainKey_of_named hb rfl) _

theorem object?_wording (f : Span → String → String) :
    (b.object? file).map (Object.wording f) = b.wording? fun t => f t.span t.text := by
  cases ho : b.object? file with
  | none =>
    rw [Block.wording?, heading_of_object?_none ho]
    rfl
  | some o =>
    obtain ⟨name, closed, hn, htype, hspan, -⟩ := object?_spec ho
    have hwords := object?_words hb file (fun k p => (f p.nameSpan.toSpan k, p.value)) ho
    rw [Option.map_some, Object.wording, hwords, Block.wording?, hn, hspan]
    rw [map_filterMap]
    congr 3
    funext st
    cases st <;> rfl

theorem object?_nameSpans :
    (b.object? file).toList.flatMap Object.nameSpans = b.names.map Token.span := by
  cases ho : b.object? file with
  | none =>
    rw [Block.names, heading_of_object?_none ho]
    rfl
  | some o =>
    obtain ⟨name, closed, hn, -, hspan, -⟩ := object?_spec ho
    have hwords := object?_words hb file (fun _ p => p.nameSpan.toSpan) ho
    rw [Option.toList_some, flatMap_singleton, Object.nameSpans, hwords, Block.names, hn]
    rw [map_cons, map_filterMap, map_filterMap]
    congr 2
    funext st
    cases st <;> rfl

end

theorem parse_wording (source file : String) (f : Span → String → String) :
    (Document.parse source file).objects.map (Object.wording f) =
      (blocksOf (Token.scan source)).filterMap (Block.wording? fun t => f t.span t.text) := by
  have links (os : List Object) : os.map (Object.wording f) =
      (os.map Object.unlinked).map (Object.wording f) := by
    rw [map_map]
    rfl
  rw [parse_objects, links, map_unlinked_linkNeighbours, ← links, map_filterMap]
  exact filterMap_congr fun b hb => object?_wording hb file f

theorem nameSpans_nodup (source : String) :
    (((blocksOf (Token.scan source)).flatMap Block.names).map Token.span).Nodup := by
  have hsub : ((blocksOf (Token.scan source)).flatMap Block.names).Sublist
      ((blocksOf (Token.scan source)).flatMap Block.tokens) :=
    List.Sublist.flatMap_right _ fun b _ => names_sublist b
  refine pairwise_map.2 (((kept_nodup source).sublist hsub).imp_of_mem ?_)
  intro u t hu ht hne hspan
  exact hne (kept_eq_of_start_eq (hsub.subset ht) (hsub.subset hu) (congrArg Span.start hspan))

theorem parse_nameSpans (source file : String) :
    (Document.parse source file).objects.flatMap Object.nameSpans =
      ((blocksOf (Token.scan source)).flatMap Block.names).map Token.span := by
  have links (os : List Object) : os.flatMap Object.nameSpans =
      (os.map Object.unlinked).flatMap Object.nameSpans := by
    rw [flatMap_map]
    rfl
  rw [parse_objects, links, map_unlinked_linkNeighbours, ← links, filterMap_eq_flatMap_toList,
    flatMap_assoc, map_flatMap]
  exact flatMap_congr fun b hb => object?_nameSpans hb file

/-! ## One name changed -/

theorem Statement.tokens_map (f : Token → Token) (st : Statement) :
    (st.map f).tokens = st.tokens.map f := by
  cases st <;> rfl

theorem Block.tokens_map (f : Token → Token) (b : Block) : (b.map f).tokens = b.tokens.map f := by
  have hheading : (b.heading.map f).tokens = b.heading.tokens.map f := by
    cases b.heading <;> rfl
  have hbody : (b.statements.map (Statement.map f)).flatMap Statement.tokens =
      (b.statements.flatMap Statement.tokens).map f := by
    rw [flatMap_map, map_flatMap]
    congr 1
    funext st
    exact Statement.tokens_map f st
  rw [Block.tokens, Block.tokens, map_cons, map_append, ← hheading, ← hbody]
  rfl

theorem Block.mem_names_map {f : Token → Token} (h : u ∈ (b.map f).names) :
    ∃ t ∈ b.names, f t = u := by
  obtain ⟨opening, heading, statements⟩ := b
  cases heading with
  | unnamed => simp [Block.names, Block.map, Heading.map] at h
  | named name closed =>
    have hkeys : (statements.map (Statement.map f)).filterMap Statement.key? =
        (statements.filterMap Statement.key?).map f := by
      rw [filterMap_map, map_filterMap]
      congr 1
      funext st
      cases st <;> rfl
    have e : (Block.map f ⟨opening, .named name closed, statements⟩).names =
        (Block.names ⟨opening, .named name closed, statements⟩).map f := by
      simp only [Block.names, Block.map, Heading.map, hkeys, map_cons]
    rw [e] at h
    exact mem_map.1 h

section

variable {source output : String} {t : Token} {text : String}
  (hscan : Token.scan output = (Token.scan source).map (t.rewording text))
  (ht : t ∈ (blocksOf (Token.scan source)).flatMap Block.names)

include ht

/-- Values stay the same when a name is changed. -/
theorem joinTokens_renamed (hb : b ∈ blocksOf (Token.scan source))
    (hst : Statement.assignment key equals value ending due ∈ b.statements) :
    joinTokens (value.map (t.rewording text)) = joinTokens value :=
  joinTokens_rewording (not_mem_value_of_mem_names hb ht hst) text

theorem kept_name : t ∈ (blocksOf (Token.scan source)).flatMap Block.tokens := by
  obtain ⟨b, hb, ht⟩ := mem_flatMap.1 ht
  exact kept_of_mem_names hb ht

theorem wording?_reworded (hb : b ∈ blocksOf (Token.scan source)) :
    (b.map (t.rewording text)).wording? Token.text =
      b.wording? fun u => if u.span = t.span then text else u.text := by
  have hname : ∀ u ∈ b.names,
      (t.rewording text u).text = if u.span = t.span then text else u.text := by
    intro u hu
    have hspan : u.span = t.span ↔ u = t := by
      constructor
      · intro e
        exact kept_eq_of_start_eq (kept_name ht) (kept_of_mem_names hb hu) (congrArg Span.start e)
      · rintro rfl
        rfl
    simp only [Token.rewording_text, hspan]
  have hvalue : ∀ key equals value ending due,
      Statement.assignment key equals value ending due ∈ b.statements →
      joinTokens (value.map (t.rewording text)) = joinTokens value :=
    fun _ _ _ _ _ hst => joinTokens_renamed ht hb hst
  obtain ⟨opening, heading, statements⟩ := b
  cases heading with
  | unnamed => rfl
  | named name closed =>
    have hstatements : (statements.map (Statement.map (t.rewording text))).filterMap
          (Statement.wording? Token.text) =
        statements.filterMap (Statement.wording? fun u =>
          if u.span = t.span then text else u.text) := by
      rw [filterMap_map]
      refine filterMap_congr fun st hst => ?_
      cases st with
      | assignment key equals value ending due =>
        simp only [Function.comp_apply, Statement.map, Statement.wording?, hvalue _ _ _ _ _ hst,
          hname key (mem_names_key rfl hst)]
      | bareName key => rfl
      | stray token => rfl
    simp only [Block.map, Heading.map, Block.wording?, hstatements,
      hname name (mem_names_heading rfl)]

theorem statement_codes_reworded (file : String) (hb : b ∈ blocksOf (Token.scan source))
    {st : Statement} (hst : st ∈ b.statements) :
    ((st.map (t.rewording text)).messages file).map (·.code) =
      (st.messages file).map (·.code) := by
  cases st with
  | assignment key equals value ending due =>
    have hlacks : ((Statement.assignment key equals value ending due).map
        (t.rewording text)).lacks = (Statement.assignment key equals value ending due).lacks := by
      simp only [Statement.map, Statement.lacks, joinTokens_renamed ht hb hst]
    simp only [Statement.map] at hlacks ⊢
    rw [assignment_messages, assignment_messages, hlacks]
    split <;> rfl
  | bareName key => rfl
  | stray token => rfl

include hscan

/-- The changed text says what the old one says, with the one name changed. -/
theorem wording_reworded (file : String) :
    (Document.parse output file).objects.map (Object.wording fun _ name => name) =
      (Document.parse source file).objects.map
        (Object.wording fun span name => if span = t.span then text else name) := by
  rw [parse_wording, parse_wording, blocksOf_reworded hscan, filterMap_map]
  exact filterMap_congr fun b hb => wording?_reworded ht hb

/-- Tokens that start in the same place afterwards are one. -/
theorem eq_of_rewording_start_eq (hu : u ∈ (blocksOf (Token.scan source)).flatMap Block.tokens)
    (h : (t.rewording text u).start = t.start) : u = t := by
  have hkept : (blocksOf (Token.scan output)).flatMap Block.tokens =
      ((blocksOf (Token.scan source)).flatMap Block.tokens).map (t.rewording text) := by
    rw [blocksOf_reworded hscan, flatMap_map, map_flatMap]
    congr 1
    funext b
    exact Block.tokens_map _ b
  have hstart : (t.rewording text u).start = (t.rewording text t).start := by
    rw [h, Token.rewording_self]
  by_contra hne
  have happly := kept_apart output
  rw [hkept, pairwise_map] at happly
  have hlt {v : Token} (hv : v ∈ (blocksOf (Token.scan source)).flatMap Block.tokens) :
      (t.rewording text v).start < (t.rewording text v).stop :=
    kept_start_lt_stop output (by rw [hkept]; exact mem_map_of_mem hv)
  rcases related_of_pairwise happly hu (kept_name ht) hne with e | e
  · exact absurd (hlt hu) (hstart ▸ e).not_gt
  · exact absurd (hlt (kept_name ht)) (hstart ▸ e).not_gt

/-! ## Codes -/

/-- The messages about the structure keep their codes. -/
theorem codes_reworded (file : String) :
    (Document.parse output file).messages.map (·.code) =
      (Document.parse source file).messages.map (·.code) := by
  have hstray : (strayMessages file (splitSections (Token.scan output)).1).map (·.code) =
      (strayMessages file (splitSections (Token.scan source)).1).map (·.code) := by
    rw [hscan, splitSections_map (Token.rewording_kind t text)]
    unfold strayMessages
    rw [find?_map]
    have e : (fun u : Token => decide (u.kind ≠ .newline) && decide (u.kind ≠ .comment)) ∘
        t.rewording text = fun u => decide (u.kind ≠ .newline) && decide (u.kind ≠ .comment) := by
      funext u
      simp
    rw [e]
    cases (splitSections (Token.scan source)).1.find?
      fun u => decide (u.kind ≠ .newline) && decide (u.kind ≠ .comment) <;> rfl
  have hblock : ∀ b ∈ blocksOf (Token.scan source),
      ((b.map (t.rewording text)).messages file).map (·.code) =
        (b.messages file).map (·.code) := by
    intro b hb
    have hheading : ((b.map (t.rewording text)).headingMessages file).map (·.code) =
        (b.headingMessages file).map (·.code) := by
      obtain ⟨opening, heading, statements⟩ := b
      cases heading with
      | unnamed => rfl
      | named name closed => cases closed <;> rfl
    have hbody : ((b.map (t.rewording text)).statements.flatMap (Statement.messages file)).map
        (·.code) = (b.statements.flatMap (Statement.messages file)).map (·.code) := by
      rw [show (b.map (t.rewording text)).statements =
        b.statements.map (Statement.map (t.rewording text)) from rfl, flatMap_map,
        map_flatMap, map_flatMap]
      exact flatMap_congr fun st hst => statement_codes_reworded ht file hb hst
    rw [Block.messages, Block.messages, map_append, map_append, hheading, hbody]
  rw [parse_messages, parse_messages, map_append, map_append,
    blocksOf_reworded hscan, flatMap_map, map_flatMap, map_flatMap]
  congr 1
  exact flatMap_congr fun b hb => hblock b hb

end

/-! ## The repair -/

/-- A message about a name offers a declared name for one token of the file. -/
theorem NameFault.target {schema : Schema} (names : schema.objects.HasPlainNames)
    {options : Options} {m : Message} (h : NameFault schema options source file m)
    {fix : Correction} (hfix : fix ∈ m.corrections) :
    ∃ b ∈ blocksOf (Token.scan source), ∃ t ∈ b.names, ∃ us vs,
      Token.scan source = us ++ t :: vs ∧ fix.span = t.span ∧ m.span = some fix.span ∧
      IsName fix.replacement.toList ∧ Renameable us t fix.replacement.toList := by
  cases h with
  | @type o ho hnone =>
    obtain ⟨b, hb, name, closed, hn, -, hspan, -, -⟩ := object_origin ho
    obtain ⟨hk, us, vs, opening, hscan, hlast, hbracket⟩ := heading_place hb hn
    obtain ⟨text, htext, rfl⟩ := offered_type hfix
    refine ⟨b, hb, name, mem_names_heading hn, us, vs, hscan, ?_, rfl, (names.1 text htext).1, hk,
      Or.inr ⟨opening, hlast, hbracket⟩⟩
    rw [hspan]
    rfl
  | @property o k p c ho hp hc hnone =>
    obtain ⟨b, hb, name, closed, hn, -, -, -, origin⟩ := object_origin ho
    obtain ⟨st, hst, written, n, hproperty, rfl⟩ := origin k p hp
    obtain ⟨key, equals, value, ending, due, rfl, rfl, rfl⟩ := assignment_of_property? hproperty
    obtain ⟨text, htext, rfl⟩ := offered_key hfix
    have hname := names.2 c (class_mem hc) text htext
    have hkey := mem_names_key hn hst
    obtain ⟨us, vs, hscan⟩ :=
      append_of_mem ((blocks_sublist _).subset (kept_of_mem_names hb hkey))
    refine ⟨b, hb, key, hkey, us, vs, hscan, ?_, rfl,
      hname.isName_mark (Key.isMarked (plusKey key.text n)), key_kind hb hst, Or.inl ?_⟩
    · rfl
    · intro hmark
      have hmarked : Key.isMarked (plusKey key.text n) = true := by
        rw [Key.isMarked_plusKey, Key.isMarked, hmark]
        rfl
      rw [hmarked, String.toList_append]
      rfl

section

variable {source output : String} {t : Token} {text : String}
  (hscan : Token.scan output = (Token.scan source).map (t.rewording text)) {b : Block}
  (hb : b ∈ blocksOf (Token.scan source)) (ht : t ∈ b.names)

include hscan hb ht

/-- A name of the changed text that starts where the changed name does is the changed name, in the
section that it stood in. -/
theorem eq_of_name_start_eq {b' : Block} (hb' : b' ∈ blocksOf (Token.scan output))
    (hu : u ∈ b'.names) (h : u.start = t.start) :
    u.text = text ∧ b' = b.map (t.rewording text) := by
  rw [blocksOf_reworded hscan] at hb'
  obtain ⟨b₀, hb₀, rfl⟩ := mem_map.1 hb'
  obtain ⟨u₀, hu₀, rfl⟩ := Block.mem_names_map hu
  obtain rfl := eq_of_rewording_start_eq hscan (mem_flatMap_of_mem hb ht)
    (kept_of_mem_names hb₀ hu₀) h
  obtain rfl := eq_of_nodup_flatMap (kept_nodup source) hb₀ hb ((names_sublist b₀).subset hu₀)
    ((names_sublist b).subset ht)
  exact ⟨by rw [Token.rewording_self], rfl⟩

/-- An object whose type name is the changed name. -/
theorem typeName_reworded (ho : o ∈ (Document.parse output file).objects)
    (h : o.typeSpan.toSpan.start = t.start) : o.typeName = text := by
  obtain ⟨b', hb', name, closed, hn, htype, hspan, -⟩ := object_origin ho
  rw [hspan] at h
  rw [htype]
  exact (eq_of_name_start_eq hscan hb ht hb' (mem_names_heading hn) h).1

/-- A property whose key is the changed name, and the type of its object. -/
theorem property_reworded (ho : o ∈ (Document.parse output file).objects) {k : String}
    {p : Property} (hp : (k, p) ∈ o.properties) (h : p.nameSpan.toSpan.start = t.start)
    (hn : b.heading = .named name closed) (hne : name ≠ t) :
    (∃ n, k = plusKey text n) ∧ o.typeName = name.text := by
  obtain ⟨b', hb', name', closed', hn', htype, -, -, origin⟩ := object_origin ho
  obtain ⟨st, hst, written, n, hproperty, rfl⟩ := origin k p hp
  obtain ⟨key, equals, value, ending, due, rfl, rfl, rfl⟩ := assignment_of_property? hproperty
  obtain ⟨htext, rfl⟩ := eq_of_name_start_eq hscan hb ht hb' (mem_names_key hn' hst) h
  refine ⟨⟨n, by rw [htext]⟩, ?_⟩
  rw [Block.map, hn] at hn'
  obtain ⟨rfl, -⟩ := Heading.named.inj hn'
  rw [htype, Token.rewording_text, if_neg hne]

end

/-- The heading of a section is none of its keys. -/
theorem heading_ne_key (hb : b ∈ blocksOf (Token.scan source)) (hn : b.heading = .named name closed)
    (hst : Statement.assignment key equals value ending due ∈ b.statements) : name ≠ key := by
  have hnodup := ((pairwise_flatMap.1 (kept_nodup source)).1 b hb).sublist (names_sublist b)
  rw [Block.names, hn] at hnodup
  exact (pairwise_cons.1 hnodup).1 key (mem_filterMap.2 ⟨_, hst, rfl⟩)

/-- A name that stands in place of one that was not known is known. -/
theorem NameFault.repaired {schema : Schema} (names : schema.objects.HasPlainNames)
    {options : Options} {output : String} {m : Message} (h : NameFault schema options source file m)
    {fix : Correction} (hfix : fix ∈ m.corrections) (hb : b ∈ blocksOf (Token.scan source))
    (ht : t ∈ b.names) (hspan : fix.span = t.span)
    (hscan : Token.scan output = (Token.scan source).map (t.rewording fix.replacement))
    {m' : Message} (h' : NameFault schema options output file m') (hcode : m'.code = m.code) :
    m'.span.map (·.start) ≠ some t.start := by
  intro hstart
  cases h with
  | @type o ho hnone =>
    obtain ⟨text, htext, rfl⟩ := offered_type hfix
    cases h' with
    | @type o' ho' hnone' =>
      rw [typeName_reworded hscan hb ht ho' (Option.some.inj hstart)] at hnone'
      exact type?_of_mem htext hnone'
    | property => exact absurd hcode (by simp [unknownProperty, unknownType, Message.about,
      Code.text])
  | @property o k p c ho hp hc hnone =>
    obtain ⟨text, htext, rfl⟩ := offered_key hfix
    cases h' with
    | type => exact absurd hcode (by simp [unknownProperty, unknownType, Message.about, Code.text])
    | @property o' k' p' c' ho' hp' hc' hnone' =>
      -- the key that was not known is the changed token
      obtain ⟨b₀, hb₀, name, closed, hn, htype, -, -, origin⟩ := object_origin ho
      obtain ⟨st, hst, written, n, hproperty, rfl⟩ := origin k p hp
      obtain ⟨key, equals, value, ending, due, rfl, rfl, rfl⟩ := assignment_of_property? hproperty
      have hkey := mem_names_key hn hst
      obtain rfl : key = t := by
        refine kept_eq_of_start_eq (kept_of_mem_names hb ht) (kept_of_mem_names hb₀ hkey) ?_
        exact congrArg Span.start hspan
      obtain ⟨⟨n', rfl⟩, htype'⟩ := property_reworded hscan hb₀ hkey ho' hp'
        (Option.some.inj hstart) hn (heading_ne_key hb₀ hn hst)
      rw [htype', ← htype, hc] at hc'
      obtain rfl := Option.some.inj hc'
      rw [Key.base_plusKey, (names.2 c (class_mem hc) text htext).base_mark] at hnone'
      exact field?_of_mem htext hnone'

/-- Correcting a name that is not known changes that name and nothing else: the same objects are
read in the same order, with the same type names, written keys and values but for the one name at
the correction, the messages about the structure have the same codes, and where the name stood no
message of that kind is left. -/
theorem renaming_repairs {schema : Schema} (names : schema.objects.HasPlainNames)
    (options : Options) (source file : String) {m : Message}
    (hm : m ∈ (validate schema options [⟨file, source⟩]).all)
    (hcode : m.code = Code.unknownObjectType.text ∨ m.code = Code.unknownProperty.text)
    {fix : Correction} (hfix : fix ∈ m.corrections) :
    ∃ output, Correction.applyAll source [fix] = .ok ⟨output, 1, []⟩ ∧
      (Document.parse output file).objects.map (Object.wording fun _ name => name) =
        (Document.parse source file).objects.map (Object.wording fun span name =>
          if span = fix.span then fix.replacement else name) ∧
      ((Document.parse source file).objects.flatMap Object.nameSpans).count fix.span = 1 ∧
      (Document.parse output file).messages.map (·.code) =
        (Document.parse source file).messages.map (·.code) ∧
      ∀ m' ∈ (validate schema options [⟨file, output⟩]).all, m'.code = m.code →
        m'.span.map (·.start) ≠ m.span.map (·.start) := by
  have fault := nameFault_of_code hm hcode
  obtain ⟨b, hb, t, ht, us, vs, hsplit, hspan, hplace, hname, hr⟩ := fault.target names hfix
  obtain ⟨output, made, hscan⟩ := scan_renamed hsplit hspan hname hr
  have hmem := mem_flatMap_of_mem hb ht
  refine ⟨output, made, ?_, ?_, codes_reworded hscan hmem file, ?_⟩
  · rw [hspan]
    exact wording_reworded hscan hmem file
  · rw [parse_nameSpans, hspan]
    exact List.count_eq_one_of_mem (nameSpans_nodup source) (mem_map_of_mem hmem)
  · intro m' hm' hcode'
    rw [hplace, hspan]
    refine fault.repaired names hfix hb ht hspan hscan ?_ hcode'
    exact nameFault_of_code hm' (by rwa [hcode'])

/-- A schema with one type of objects, which have a number and a list of names. -/
def rosterSchema : Schema :=
  { Schema.empty with
    objects :=
      { types := [⟨"A", .definition, some "A", false, true, [], none⟩]
        classes := [⟨"A", [⟨"k", .integer, false, none, false⟩,
          ⟨"Name", .list .string, false, none, false⟩]⟩]
        enums := [] } }

/-- A key right behind a value, from which its mark sets it apart, is corrected with its mark. -/
theorem renaming_keeps_mark :
    rosterSchema.objects.HasPlainNames ∧
      ∃ m ∈ (validate rosterSchema { maxDistance := 1 } [⟨"f", "[A] k=1 !Nme=x;"⟩]).all,
        m.code = Code.unknownProperty.text ∧ ∃ fix ∈ m.corrections, fix.replacement = "!Name" ∧
        ∃ output, Correction.applyAll "[A] k=1 !Nme=x;" [fix] = .ok ⟨output, 1, []⟩ ∧
          (Document.parse output "f").objects.map (Object.wording fun _ name => name) =
            [("A", [("k", "1"), ("!Name", "x")])] ∧
          ∀ m' ∈ (validate rosterSchema { maxDistance := 1 } [⟨"f", output⟩]).all,
            m'.code = m.code → m'.span.map (·.start) ≠ m.span.map (·.start) := by
  have names : rosterSchema.objects.HasPlainNames := by decide +kernel
  have reported : ∃ m ∈ (validate rosterSchema { maxDistance := 1 }
      [⟨"f", "[A] k=1 !Nme=x;"⟩]).all, m.code = Code.unknownProperty.text ∧
        ⟨"f", ⟨⟨1, 8⟩, ⟨1, 12⟩⟩, "!Name"⟩ ∈ m.corrections := by
    decide +kernel
  obtain ⟨m, hm, hcode, hfix⟩ := reported
  obtain ⟨output, made, wording, -, -, repaired⟩ :=
    renaming_repairs names { maxDistance := 1 } "[A] k=1 !Nme=x;" "f" hm (Or.inr hcode) hfix
  refine ⟨names, m, hm, hcode, _, hfix, rfl, output, made, ?_, repaired⟩
  rw [wording]
  decide +kernel

end ModCheck
