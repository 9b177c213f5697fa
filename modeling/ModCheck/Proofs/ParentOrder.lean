import ModCheck.Proofs.NameRepair

/-
  Objects that have to follow a parent. The check walks back from an object: it ends well at an
  object of one of the parent types, goes on over nested objects that have parents themselves, and
  fails at anything else. So the object is in order just if a parent stands somewhere before it with
  nothing but such objects in between (`FollowsParent`), whichever families those belong to. The
  numbers of previous objects that a file is read with lead the same way (`ReachesParent`).
  Main statement: `parent_order_reported`.
-/

namespace ModCheck

open List

/-! ## The walk back -/

/-- Whether an object may stand between another one and its parent: its type is known and nested,
and it has parents itself. -/
def ObjectSchema.IsLink (schema : ObjectSchema) (o : Object) : Prop :=
  ∃ type ∈ schema.type? o.typeName, type.category = .nested ∧ type.parents ≠ []

/-- Before number `i` of some objects there is one of a parent type, with links only in between. -/
def FollowsParent (schema : ObjectSchema) (parents : List String) (os : List Object) (i : Nat) :
    Prop :=
  ∃ j < i, (∃ p ∈ os[j]?, p.typeName ∈ parents) ∧
    ∀ k < i, j < k → ∀ o ∈ os[k]?, schema.IsLink o

instance (schema : ObjectSchema) (o : Object) : Decidable (schema.IsLink o) :=
  inferInstanceAs (Decidable (∃ _ ∈ _, _))

instance (schema : ObjectSchema) (parents : List String) (os : List Object) (i : Nat) :
    Decidable (FollowsParent schema parents os i) :=
  inferInstanceAs (Decidable (∃ _ < i, _))

section

variable {schema : ObjectSchema} {parents : List String} {os : List Object} {o : Object} {i : Nat}

/-- One step of the walk. -/
theorem hasParentBefore_cons (o : Object) (before : List Object) :
    hasParentBefore schema parents (o :: before) = true ↔
      o.typeName ∈ parents ∨ schema.IsLink o ∧ hasParentBefore schema parents before = true := by
  rw [hasParentBefore]
  by_cases parent : o.typeName ∈ parents
  · simp [parent]
  · rw [if_neg (by simpa using parent)]
    cases ht : schema.type? o.typeName with
    | none => simp [ObjectSchema.IsLink, ht, parent]
    | some type => simp [ObjectSchema.IsLink, ht, parent]

theorem followsParent_zero (os : List Object) : ¬ FollowsParent schema parents os 0 := by
  rintro ⟨j, hj, -⟩
  exact Nat.not_lt_zero j hj

/-- One number on, the object in between is the parent, or it is a link behind one. -/
theorem followsParent_succ (h : os[i]? = some o) :
    FollowsParent schema parents os (i + 1) ↔
      o.typeName ∈ parents ∨ schema.IsLink o ∧ FollowsParent schema parents os i := by
  constructor
  · rintro ⟨j, hj, ⟨p, hp, parent⟩, links⟩
    rcases Nat.lt_succ_iff_lt_or_eq.1 hj with lt | rfl
    · exact .inr ⟨links i (Nat.lt_succ_self i) lt o h, j, lt, ⟨p, hp, parent⟩,
        fun k hk => links k (Nat.lt_succ_of_lt hk)⟩
    · exact .inl (Option.some.inj (h.symm.trans hp) ▸ parent)
  · rintro (parent | ⟨link, j, hj, found, links⟩)
    · exact ⟨i, Nat.lt_succ_self i, ⟨o, h, parent⟩, fun k hk lt => absurd hk (by omega)⟩
    · refine ⟨j, Nat.lt_succ_of_lt hj, found, fun k hk lt q hq => ?_⟩
      rcases Nat.lt_succ_iff_lt_or_eq.1 hk with hk | rfl
      · exact links k hk lt q hq
      · exact Option.some.inj (h.symm.trans hq) ▸ link

/-- The walk back from an object ends well just if the object follows a parent. -/
theorem hasParentBefore_reverse (us vs : List Object) :
    hasParentBefore schema parents us.reverse = true ↔
      FollowsParent schema parents (us ++ vs) us.length := by
  induction us using List.reverseRecOn generalizing vs with
  | nil => simp [hasParentBefore, followsParent_zero]
  | append_singleton us o ih =>
    have here : (us ++ [o] ++ vs)[us.length]? = some o := by simp
    rw [reverse_append, reverse_singleton, singleton_append, hasParentBefore_cons, length_append,
      length_singleton, followsParent_succ here, append_assoc, ih]

/-- The same walk by the numbers that objects have of the one before them: from the object with a
number back over links to one of a parent type. -/
inductive ReachesParent (schema : ObjectSchema) (parents : List String) (os : List Object) :
    Option Nat → Prop
  | parent {i : Nat} {p : Object} (found : os[i]? = some p) (h : p.typeName ∈ parents) :
      ReachesParent schema parents os (some i)
  | link {i : Nat} {o : Object} (found : os[i]? = some o) (link : schema.IsLink o)
      (rest : ReachesParent schema parents os o.previous) :
      ReachesParent schema parents os (some i)

theorem previous_of_linkNeighbours (h : (linkNeighbours os)[i]? = some o) :
    o.previous = if i = 0 then none else some (i - 1) := by
  rw [linkNeighbours, getElem?_mapIdx] at h
  obtain ⟨o, -, rfl⟩ := Option.map_eq_some_iff.1 h
  simp

/-- The numbers that are written into objects lead the walk to all objects before, one by one. -/
theorem reachesParent_iff_followsParent (h : (linkNeighbours os)[i]? = some o) :
    ReachesParent schema parents (linkNeighbours os) o.previous ↔
      FollowsParent schema parents (linkNeighbours os) i := by
  rw [previous_of_linkNeighbours h]
  induction i generalizing o with
  | zero =>
    refine ⟨fun reaches => ?_, fun follows => absurd follows (followsParent_zero _)⟩
    cases reaches
  | succ i ih =>
    have lt : i < (linkNeighbours os).length := by
      have := (List.getElem?_eq_some_iff.1 h).1
      omega
    have found := getElem?_eq_getElem lt
    rw [followsParent_succ found, ← ih found, ← previous_of_linkNeighbours found]
    constructor
    · rintro (⟨found', parent⟩ | ⟨found', link, rest⟩)
      · exact .inl (Option.some.inj (found.symm.trans found') ▸ parent)
      · obtain rfl := Option.some.inj (found.symm.trans found')
        exact .inr ⟨link, rest⟩
    · rintro (parent | ⟨link, rest⟩)
      · exact .parent found parent
      · exact .link found link rest

end

/-! ## The messages of the check -/

/-- Whether a message told of an object that it does not follow a parent: it stands at the name of
its type. -/
def Message.misplaces (o : Object) (m : Message) : Bool :=
  m.code == Code.parentOrder.text && m.span == some o.typeSpan.toSpan

section

variable {schema : Schema} {options : Options} {before : List Object} {o : Object} {m : Message}

theorem code_ne_parentOrder {c : Code} (h : m.code = c.text) (other : c ≠ .parentOrder) :
    m.code ≠ Code.parentOrder.text := by
  rw [h]
  cases c <;> simp [Code.text] at other ⊢

theorem AboutProperty.code_ne {c : ObjectClass} {e : String × Property}
    (h : AboutProperty schema options o c e m) : m.code ≠ Code.parentOrder.text := by
  cases h with
  | unknown h => exact code_ne_parentOrder (c := .unknownProperty) rfl (by decide)
  | repeated hf single h => exact code_ne_parentOrder (c := .duplicateProperty) rfl (by decide)
  | marked hf single h => exact code_ne_parentOrder (c := .replaceMarker) rfl (by decide)
  | @value field issue hf h =>
    refine code_ne_parentOrder (c := issue.code) rfl fun e => ?_
    have ofValue := isOfValue_of_mem_valueIssues h
    rw [e] at ofValue
    exact Bool.false_ne_true ofValue

/-- Only one check reports under this code. -/
theorem AboutObject.eq_misplacement (h : AboutObject schema options before o m)
    (code : m.code = Code.parentOrder.text) :
    ∃ type, schema.objects.type? o.typeName = some type ∧ type.parents ≠ [] ∧
      hasParentBefore schema.objects type.parents before = false ∧ m = misplacement type o := by
  cases h with
  | unknown h => exact absurd code (code_ne_parentOrder (c := .unknownObjectType) rfl (by decide))
  | identifier ht wanted h =>
    exact absurd code (code_ne_parentOrder (c := .missingId) rfl (by decide))
  | copy ht refused he h =>
    exact absurd code (code_ne_parentOrder (c := .cloneUnsupported) rfl (by decide))
  | misplaced ht some h => exact ⟨_, ht, some, h, rfl⟩
  | property hc he h => exact absurd code h.code_ne

theorem misplaces_iff : m.misplaces o = true ↔
    m.code = Code.parentOrder.text ∧ m.span = some o.typeSpan.toSpan := by
  simp [Message.misplaces]

theorem misplaces_misplacement (type : ObjectType) (o : Object) :
    (misplacement type o).misplaces o = true :=
  misplaces_iff.2 ⟨rfl, rfl⟩

theorem filter_misplaces_of_code_ne {ms : List Message}
    (h : ∀ m ∈ ms, m.code ≠ Code.parentOrder.text) : ms.filter (·.misplaces o) = [] :=
  filter_eq_nil_iff.2 fun m hm told => h m hm (misplaces_iff.1 told).1

/-- Of the messages about an object, those that say this of it are what the check gives. -/
theorem filter_objectMessages_misplaces {type : ObjectType}
    (ht : schema.objects.type? o.typeName = some type) :
    (objectMessages schema options before o).filter (·.misplaces o) =
      misplaced schema.objects type before o := by
  have id : (missingId type o).filter (·.misplaces o) = [] := by
    unfold missingId
    split <;> rfl
  have clones : (unsupportedClones type o).filter (·.misplaces o) = [] := by
    refine filter_misplaces_of_code_ne fun m hm => ?_
    unfold unsupportedClones at hm
    split at hm
    · simp at hm
    · obtain ⟨e, -, rfl⟩ := mem_map.1 hm
      exact code_ne_parentOrder (c := .cloneUnsupported) rfl (by decide)
  have place : (misplaced schema.objects type before o).filter (·.misplaces o) =
      misplaced schema.objects type before o := by
    rw [misplaced_eq]
    split
    · rfl
    · exact filter_eq_self.2 (by simp [misplaces_misplacement])
  unfold objectMessages
  rw [ht]
  simp only [filter_append, id, clones, place, nil_append]
  cases type.className.bind schema.objects.class? with
  | none => exact append_nil _
  | some c =>
    rw [filter_misplaces_of_code_ne, append_nil]
    intro m hm
    obtain ⟨e, -, hm⟩ := mem_flatMap.1 hm
    exact (about_of_mem_propertyMessages hm).code_ne

/-- The messages about other objects, at other places, do not say this of an object. -/
theorem filter_objectsMessages_misplaces {os : List Object}
    (apart : ∀ p ∈ os, p.typeSpan.toSpan ≠ o.typeSpan.toSpan) :
    (objectsMessages schema options before os).filter (·.misplaces o) = [] := by
  refine filter_eq_nil_iff.2 fun m hm told => ?_
  obtain ⟨code, span⟩ := misplaces_iff.1 told
  obtain ⟨us, p, vs, rfl, about⟩ := about_of_mem_objectsMessages hm
  obtain ⟨type, -, -, -, rfl⟩ := about.eq_misplacement code
  exact apart p (by simp) (Option.some.inj span)

end

/-! ## Files -/

section

variable {schema : Schema} {options : Options} {f : SourceFile}

theorem typeSpans_nodup (source file : String) :
    ((Document.parse source file).objects.map (·.typeSpan.toSpan)).Nodup := by
  have names : ((Document.parse source file).objects.flatMap Object.nameSpans).Nodup := by
    rw [parse_nameSpans]
    exact nameSpans_nodup source
  have types : ((Document.parse source file).objects.map (·.typeSpan.toSpan)).Sublist
      ((Document.parse source file).objects.flatMap Object.nameSpans) := by
    rw [map_eq_flatMap]
    exact List.Sublist.flatMap_right _ fun o _ => by simp [Object.nameSpans]
  exact names.sublist types

theorem misplaces_checkFile {us vs : List Object} {o : Object}
    (split : (checkFile schema options f).objects = us ++ o :: vs) {type : ObjectType}
    (ht : schema.objects.type? o.typeName = some type) :
    (checkFile schema options f).messages.filter (·.misplaces o) =
      misplaced schema.objects type us.reverse o := by
  have split' : (Document.parse f.source f.file).objects = us ++ o :: vs := split
  have spans := typeSpans_nodup f.source f.file
  rw [split', map_append, map_cons] at spans
  obtain ⟨-, later, earlier⟩ := nodup_append.1 spans
  have structural : (Document.parse f.source f.file).messages.filter (·.misplaces o) = [] := by
    refine filter_misplaces_of_code_ne fun m hm => ?_
    obtain ⟨c, hc, hs⟩ := (about_of_mem_parse hm).isOfStructure
    refine code_ne_parentOrder hc fun e => ?_
    rw [e] at hs
    exact Bool.false_ne_true hs
  have front : (objectsMessages schema options [] us).filter (·.misplaces o) = [] :=
    filter_objectsMessages_misplaces fun p hp =>
      earlier _ (mem_map_of_mem hp) _ mem_cons_self
  have back : (objectsMessages schema options (o :: us.reverse) vs).filter (·.misplaces o) = [] :=
    filter_objectsMessages_misplaces fun p hp e =>
      (nodup_cons.1 later).1 (e ▸ mem_map_of_mem hp)
  rw [checkFile, split']
  rw [objectsMessages_append, append_nil, objectsMessages, filter_append,
    filter_append, filter_append, structural, front, back,
    filter_objectMessages_misplaces ht, nil_append, nil_append, append_nil]

end

/-- Whether an object follows a parent is decided by the run of nested objects before it. An object
whose type has parents gets no message about it if one of a parent type stands somewhere before it
with only links in between, and otherwise exactly one, at the name of its type. No other message
of the file comes from this check. The numbers of previous objects lead back to such a parent in the
same cases. -/
theorem parent_order_reported (schema : Schema) (options : Options) (f : SourceFile) :
    let d := checkFile schema options f
    (∀ i o type, d.objects[i]? = some o → schema.objects.type? o.typeName = some type →
      type.parents ≠ [] →
        (FollowsParent schema.objects type.parents d.objects i →
          d.messages.filter (·.misplaces o) = []) ∧
        (¬ FollowsParent schema.objects type.parents d.objects i →
          d.messages.filter (·.misplaces o) = [misplacement type o])) ∧
    (∀ m ∈ d.messages, m.code = Code.parentOrder.text →
      ∃ i o type, d.objects[i]? = some o ∧ schema.objects.type? o.typeName = some type ∧
        type.parents ≠ [] ∧ ¬ FollowsParent schema.objects type.parents d.objects i ∧
        m = misplacement type o) ∧
    ∀ i o parents, d.objects[i]? = some o →
      (ReachesParent schema.objects parents d.objects o.previous ↔
        FollowsParent schema.objects parents d.objects i) := by
  intro d
  have walk (us vs : List Object) (o : Object) (parents : List String) :=
    @hasParentBefore_reverse schema.objects parents us (o :: vs)
  refine ⟨?_, ?_, fun i o parents ho => reachesParent_iff_followsParent ho⟩
  · intro i o type ho ht some
    obtain ⟨hi, rfl⟩ := List.getElem?_eq_some_iff.1 ho
    have split : d.objects = d.objects.take i ++ d.objects[i] :: d.objects.drop (i + 1) := by
      rw [← drop_eq_getElem_cons hi, take_append_drop]
    have here := walk (d.objects.take i) (d.objects.drop (i + 1)) d.objects[i] type.parents
    rw [← split, length_take, Nat.min_eq_left (Nat.le_of_lt hi)] at here
    rw [misplaces_checkFile split ht, misplaced_eq, ← here]
    constructor
    · intro follows
      rw [if_pos (Or.inr follows)]
    · intro lost
      rw [if_neg (by simp [some, lost])]
  · intro m hm code
    rcases mem_append.1 hm with hm | hm
    · obtain ⟨c, hc, hs⟩ := (about_of_mem_parse hm).isOfStructure
      refine absurd code (code_ne_parentOrder hc fun e => ?_)
      rw [e] at hs
      exact Bool.false_ne_true hs
    · obtain ⟨us, o, vs, split, about⟩ := about_of_mem_objectsMessages hm
      obtain ⟨type, ht, some, lost, rfl⟩ := about.eq_misplacement code
      rw [append_nil] at lost
      have split' : d.objects = us ++ o :: vs := split
      refine ⟨us.length, o, type, by simp [split'], ht, some, ?_, rfl⟩
      rw [split', ← walk us vs o type.parents, lost]
      exact Bool.false_ne_true

/-- Two nested types of different families. -/
def nestingSchema : Schema :=
  { Schema.empty with
    objects :=
      { types :=
          [⟨"A", .definition, none, false, false, [], none⟩,
           ⟨"B", .definition, none, false, false, [], none⟩,
           ⟨"M", .nested, none, false, false, ["A"], none⟩,
           ⟨"N", .nested, none, false, false, ["B"], none⟩]
        classes := []
        enums := [] } }

/-- A nested object behind one of another family, which itself lacks its parent. -/
theorem parent_order_reported_across_families :
    let d := checkFile nestingSchema {} ⟨"f", "[A] [N] [M]"⟩
    ∃ n ∈ d.objects[1]?, ∃ m ∈ d.objects[2]?,
      FollowsParent nestingSchema.objects ["A"] d.objects 2 ∧
      d.messages.filter (·.misplaces m) = [] ∧
      ¬ FollowsParent nestingSchema.objects ["B"] d.objects 1 ∧
      d.messages.filter (·.misplaces n) = [.about .error .parentOrder
        "[N] must directly follow one of: B" "f" ⟨⟨1, 5⟩, ⟨1, 6⟩⟩] := by
  intro d
  have found : ∃ n ∈ d.objects[1]?, ∃ m ∈ d.objects[2]?, n.typeName = "N" ∧ m.typeName = "M" ∧
      misplacement ⟨"N", .nested, none, false, false, ["B"], none⟩ n = .about .error .parentOrder
        "[N] must directly follow one of: B" "f" ⟨⟨1, 5⟩, ⟨1, 6⟩⟩ ∧
      FollowsParent nestingSchema.objects ["A"] d.objects 2 ∧
      ¬ FollowsParent nestingSchema.objects ["B"] d.objects 1 := by decide +kernel
  obtain ⟨n, hn, m, hm, ntype, mtype, message, follows, lost⟩ := found
  have reported := (parent_order_reported nestingSchema {} ⟨"f", "[A] [N] [M]"⟩).1
  have quiet := (reported 2 m ⟨"M", .nested, none, false, false, ["A"], none⟩ hm
    (by rw [mtype]; decide +kernel) (by decide)).1 follows
  have named := (reported 1 n ⟨"N", .nested, none, false, false, ["B"], none⟩ hn
    (by rw [ntype]; decide +kernel) (by decide)).2 lost
  exact ⟨n, hn, m, hm, follows, quiet, lost, named.trans (by rw [message])⟩

end ModCheck
