import ModCheck.Pattern.Parser
import ModCheck.Proofs.TypeExpansion

/-
  What a class inherits. A class and those that it extends, one after the other, make a chain that
  ends at a class without a parent or before one that is not declared (`Ancestry`). Walking up a
  chain, a class that was met has led to where the walk stands (`Climbing`), so the walk meets a
  class again just if that class extends itself in some number of steps (`fieldsFrom_cyclic_iff`).
  Where this does not happen, the fields of a class with some name are those that the nearest class
  of the chain declares, and fields of farther classes stand first (`Flattened`).
-/

namespace ModCheck

open List
open Relation (ReflTransGen TransGen)

/-! ## Results of a list -/

section

variable {α β ε : Type} {f : α → Except ε β} {l : List α}

theorem exists_of_forall₂ {R : α → β → Prop} {bs : List β} (h : List.Forall₂ R l bs) :
    ∀ b ∈ bs, ∃ a ∈ l, R a b := by
  induction h with
  | nil => simp
  | cons first _ ih =>
    refine forall_mem_cons.2 ⟨⟨_, mem_cons_self, first⟩, fun b hb => ?_⟩
    obtain ⟨a, ha, e⟩ := ih b hb
    exact ⟨a, mem_cons_of_mem _ ha, e⟩

theorem mapM_eq_ok_of_forall (h : ∀ a ∈ l, ∃ b, f a = .ok b) : ∃ bs, l.mapM f = .ok bs := by
  cases e : l.mapM f with
  | ok bs => exact ⟨bs, rfl⟩
  | error fault =>
    obtain ⟨a, ha, failed⟩ := exists_of_mapM_eq_error e
    obtain ⟨b, built⟩ := h a ha
    rw [failed] at built
    cases built

end

/-! ## Fields of a class -/

namespace FieldDeclaration

variable {patterns : PatternLanguage} {scope : FieldType.Scope} {className : String}
  {f : FieldDeclaration}

theorem build_ne_cyclic : f.build patterns scope className ≠ .error .cyclicInheritance := by
  rcases f.build_cases patterns scope className with ⟨_, _, -, -, e⟩ | ⟨-, -, e⟩ | ⟨-, e⟩ <;>
    simp [e]

/-- A field is built if its pattern can be read, when it has one, and its type has an end. -/
theorem exists_build_iff : (∃ field, f.build patterns scope className = .ok field) ↔
    (f.isPattern = true → patterns (anchored f.name) ≠ none) ∧
      ¬ FieldType.Circular scope f.type := by
  rw [← FieldType.resolve?_ends_iff]
  rcases f.build_cases patterns scope className with ⟨pattern, type, read, found, e⟩ |
    ⟨isPattern, unread, e⟩ | ⟨endless, e⟩
  · exact ⟨fun _ => ⟨read, type, found⟩, fun _ => ⟨_, e⟩⟩
  · simp [e, isPattern, unread]
  · simp [e, endless]

end FieldDeclaration

/-- Whether a class has a field with a name among its own. -/
def ClassDeclaration.declares (c : ClassDeclaration) (name : String) : Bool :=
  c.fields.any (·.name == name)

/-- A name that the class declares itself has its own fields, any other the inherited ones. -/
theorem filter_inherit (inherited own : List Field) (name : String) :
    (inherit inherited own).filter (·.name == name) =
      if own.any (·.name == name) then own.filter (·.name == name)
      else inherited.filter (·.name == name) := by
  unfold inherit
  rw [filter_append, filter_filter]
  split
  · next shadowed =>
    have none : inherited.filter (fun f => f.name == name && !own.any (·.name == f.name)) = [] := by
      refine filter_eq_nil_iff.2 fun f _ h => ?_
      simp only [Bool.and_eq_true, beq_iff_eq] at h
      rw [h.1, shadowed] at h
      simp at h
    rw [none, nil_append]
  · next free =>
    have none : own.filter (·.name == name) = [] := by
      refine filter_eq_nil_iff.2 fun f hf h => free (any_eq_true.2 ⟨f, hf, h⟩)
    rw [none, append_nil]
    refine filter_congr fun f _ => ?_
    by_cases h : f.name = name
    · simp [h, free]
    · simp [h]

namespace Declarations

variable {c : ClassDeclaration} {chain : List (String × ClassDeclaration)} {schema : ObjectSchema}

variable {d : Declarations} {patterns : PatternLanguage}
  {pending : List (String × ClassDeclaration)} {name : String}

/-! ## Chains of classes -/

/-- From a class to the one that it extends, whether that is declared or not. -/
def Extends (d : Declarations) (name parent : String) : Prop :=
  ∃ c, d.classes.lookup name = some c ∧ c.parent = some parent

/-- A class and those above it, the nearest first, as far as they are declared. -/
inductive Ancestry (d : Declarations) : String → List (String × ClassDeclaration) → Prop
  | undeclared {name : String} (absent : d.classes.lookup name = none) : Ancestry d name []
  | root {name : String} {c : ClassDeclaration} (found : d.classes.lookup name = some c)
      (last : c.parent = none) : Ancestry d name [(name, c)]
  | child {name parent : String} {c : ClassDeclaration} {chain : List (String × ClassDeclaration)}
      (found : d.classes.lookup name = some c) (next : c.parent = some parent)
      (above : Ancestry d parent chain) : Ancestry d name ((name, c) :: chain)

theorem Ancestry.unique {chain' : List (String × ClassDeclaration)} (h : d.Ancestry name chain)
    (h' : d.Ancestry name chain') : chain = chain' := by
  induction h generalizing chain' with
  | undeclared absent => cases h' <;> simp_all
  | root found last => cases h' <;> simp_all
  | child found next above ih =>
    cases h' with
    | undeclared absent => simp_all
    | root found' last => simp_all
    | child found' next' above' =>
      obtain rfl := Option.some.inj (found.symm.trans found')
      obtain rfl := Option.some.inj (next.symm.trans next')
      rw [ih above']

/-- Each step up leaves one class of the chain behind, so a class that has a chain leads to none
that extends itself. -/
theorem Ancestry.not_circle {again : String} (h : d.Ancestry name chain)
    (path : ReflTransGen d.Extends name again) : ¬ TransGen d.Extends again again := by
  refine not_circle_of_size (P := d.Ancestry) List.length Ancestry.unique
    (fun ancestry step => ?_) h path
  obtain ⟨c, found, next⟩ := step
  cases ancestry with
  | undeclared absent => simp_all
  | root found' last => simp_all
  | child found' next' above =>
    obtain rfl := Option.some.inj (found.symm.trans found')
    obtain rfl := Option.some.inj (next.symm.trans next')
    exact ⟨_, above, Nat.lt_succ_self _⟩

/-! ## Walking up -/

theorem lookup_without (classes : List (String × ClassDeclaration)) (name other : String) :
    (without classes name).lookup other = if other = name then none else classes.lookup other := by
  unfold without
  induction classes with
  | nil => simp
  | cons entry classes ih =>
    obtain ⟨key, c⟩ := entry
    by_cases hk : key = name
    · rw [filter_cons_of_neg (by simp [hk]), ih]
      split
      · rfl
      · next ho => rw [lookup_cons, beq_eq_false_iff_ne.2 (hk ▸ ho)]
    · rw [filter_cons_of_pos (by simp [hk]), lookup_cons, lookup_cons, ih]
      by_cases ho : other = key
      · simp [ho, hk]
      · rw [beq_eq_false_iff_ne.2 ho]

/-- A walk up from `name` along the classes not yet met. It comes to a class that is not declared,
to one that was met and so extends itself, or to one that is still to be met as declared. -/
inductive Walk (d : Declarations) : List (String × ClassDeclaration) → String → Prop
  | undeclared {pending : List (String × ClassDeclaration)} {name : String}
      (met : pending.lookup name = none) (absent : d.classes.lookup name = none) :
      Walk d pending name
  | circle {pending : List (String × ClassDeclaration)} {name : String} {c : ClassDeclaration}
      (met : pending.lookup name = none) (declared : d.classes.lookup name = some c)
      (again : TransGen d.Extends name name) : Walk d pending name
  | root {pending : List (String × ClassDeclaration)} {name : String} {c : ClassDeclaration}
      (found : pending.lookup name = some c) (declared : d.classes.lookup name = some c)
      (last : c.parent = none) : Walk d pending name
  | child {pending : List (String × ClassDeclaration)} {name parent : String}
      {c : ClassDeclaration} (found : pending.lookup name = some c)
      (declared : d.classes.lookup name = some c) (next : c.parent = some parent)
      (above : Walk d (without pending name) parent) : Walk d pending name

/-- The classes that are no longer pending have led to `name`. -/
def Climbing (d : Declarations) (pending : List (String × ClassDeclaration)) (name : String) :
    Prop :=
  ∀ other, pending.lookup other = d.classes.lookup other ∨
    pending.lookup other = none ∧ TransGen d.Extends other name

theorem Climbing.up (h : d.Climbing pending name) {parent : String}
    (declared : d.classes.lookup name = some c) (next : c.parent = some parent) :
    d.Climbing (without pending name) parent := by
  have step : d.Extends name parent := ⟨c, declared, next⟩
  intro other
  rw [lookup_without]
  split
  · next here =>
    subst here
    exact .inr ⟨rfl, .single step⟩
  · exact (h other).imp_right fun ⟨met, path⟩ => ⟨met, path.tail step⟩

theorem Climbing.walk (h : d.Climbing pending name) : d.Walk pending name := by
  induction hn : pending.length using Nat.strong_induction_on generalizing pending name with
  | _ n ih =>
    cases found : pending.lookup name with
    | none =>
      cases declared : d.classes.lookup name with
      | none => exact .undeclared found declared
      | some c =>
        rcases h name with same | ⟨-, again⟩
        · rw [found, declared] at same
          cases same
        · exact .circle found declared again
    | some c =>
      have declared : d.classes.lookup name = some c := by
        rcases h name with same | ⟨met, -⟩
        · rw [← same, found]
        · rw [found] at met
          cases met
      cases hc : c.parent with
      | none => exact .root found declared hc
      | some parent =>
        exact .child found declared hc
          (ih _ (hn ▸ length_without_lt found) (h.up declared hc) rfl)

theorem walk_start (d : Declarations) (name : String) : d.Walk d.classes name :=
  Climbing.walk fun _ => .inl rfl

theorem fieldsFrom_of_met (met : pending.lookup name = none) :
    d.fieldsFrom patterns pending name =
      if (d.classes.lookup name).isSome then .error .cyclicInheritance else .ok [] := by
  rw [fieldsFrom]
  split
  · rfl
  · next h => simp [met] at h

theorem fieldsFrom_of_root (found : pending.lookup name = some c) (last : c.parent = none) :
    d.fieldsFrom patterns pending name =
      c.fields.mapM (·.build patterns d.scope name) >>= fun own => .ok (inherit [] own) := by
  rw [fieldsFrom_eq found, inheritedFields, last]
  rfl

theorem fieldsFrom_of_child {parent : String} (found : pending.lookup name = some c)
    (next : c.parent = some parent) :
    d.fieldsFrom patterns pending name =
      d.fieldsFrom patterns (without pending name) parent >>= fun inherited =>
        c.fields.mapM (·.build patterns d.scope name) >>= fun own =>
          .ok (inherit inherited own) := by
  rw [fieldsFrom_eq found, inheritedFields, next]

/-- The own fields of a class never fail for a circle. -/
theorem own_ne_cyclic {inherited : List Field} :
    (c.fields.mapM (·.build patterns d.scope name) >>= fun own => .ok (inherit inherited own)) ≠
      .error SchemaFault.cyclicInheritance := by
  intro h
  rcases bind_eq_error h with failed | ⟨own, -, h⟩
  · obtain ⟨f, -, failed⟩ := exists_of_mapM_eq_error failed
    exact FieldDeclaration.build_ne_cyclic failed
  · cases h

/-- A walk that fails for a circle has come to one. -/
theorem Walk.circle_of_cyclic (walk : d.Walk pending name)
    (h : d.fieldsFrom patterns pending name = .error .cyclicInheritance) :
    ∃ again, ReflTransGen d.Extends name again ∧ TransGen d.Extends again again := by
  induction walk with
  | undeclared met absent =>
    rw [fieldsFrom_of_met met, absent] at h
    cases h
  | circle met declared again => exact ⟨_, .refl, again⟩
  | root found declared last =>
    rw [fieldsFrom_of_root found last] at h
    exact absurd h own_ne_cyclic
  | child found declared next above ih =>
    rw [fieldsFrom_of_child found next] at h
    rcases bind_eq_error h with failed | ⟨inherited, -, h⟩
    · obtain ⟨again, path, circle⟩ := ih failed
      exact ⟨again, path.head ⟨_, declared, next⟩, circle⟩
    · exact absurd h own_ne_cyclic

/-- A walk that does not come to an end fails for a circle. -/
theorem Walk.ancestry_or_cyclic (walk : d.Walk pending name) :
    (∃ chain, d.Ancestry name chain) ∨
      d.fieldsFrom patterns pending name = .error .cyclicInheritance := by
  induction walk with
  | undeclared met absent => exact .inl ⟨[], .undeclared absent⟩
  | circle met declared again =>
    rw [fieldsFrom_of_met met, declared]
    exact .inr rfl
  | root found declared last => exact .inl ⟨_, .root declared last⟩
  | child found declared next above ih =>
    rcases ih with ⟨chain, ancestry⟩ | failed
    · exact .inl ⟨_, .child declared next ancestry⟩
    · rw [fieldsFrom_of_child found next, failed]
      exact .inr rfl

/-- The fields of a class cannot be found for a circle just if it leads to a class that extends
itself. -/
theorem fieldsFrom_cyclic_iff : d.fieldsFrom patterns d.classes name = .error .cyclicInheritance ↔
    ∃ again, ReflTransGen d.Extends name again ∧ TransGen d.Extends again again := by
  constructor
  · exact (walk_start d name).circle_of_cyclic
  · rintro ⟨again, path, circle⟩
    rcases (walk_start d name).ancestry_or_cyclic with ⟨chain, h⟩ | failed
    · exact absurd circle (h.not_circle path)
    · exact failed

/-! ## The fields of a chain -/

/-- The fields of a chain of classes. -/
structure Flattened (d : Declarations) (patterns : PatternLanguage)
    (chain : List (String × ClassDeclaration)) (fields : List Field) : Prop where
  /-- The fields with some name are those of the nearest class that has any, in its order. -/
  nearest : ∀ field owner, chain.find? (·.2.declares field) = some owner →
    List.Forall₂ (fun f built => f.build patterns d.scope owner.1 = .ok built)
      (owner.2.fields.filter (·.name == field)) (fields.filter (·.name == field))
  undeclared : ∀ field, chain.find? (·.2.declares field) = none →
    fields.filter (·.name == field) = []
  /-- Each class has its part of the fields, and the part of a farther class stands first. -/
  ordered : ∃ parts, fields = parts.reverse.flatten ∧
    List.Forall₂ (fun (owner : String × ClassDeclaration) part =>
      ∀ built ∈ part, ∃ f ∈ owner.2.fields, f.build patterns d.scope owner.1 = .ok built)
      chain parts

theorem flattened_nil : d.Flattened patterns [] [] :=
  ⟨fun _ _ h => by simp at h, fun _ _ => rfl, ⟨[], rfl, .nil⟩⟩

/-- A class below a chain puts its own fields behind those of the chain. -/
theorem Flattened.cons {inherited own : List Field} (h : d.Flattened patterns chain inherited)
    (built : c.fields.mapM (·.build patterns d.scope name) = .ok own) :
    d.Flattened patterns ((name, c) :: chain) (inherit inherited own) := by
  have each := forall₂_of_mapM_eq_ok built
  have named (field : String) :
      List.Forall₂ (fun f built => f.build patterns d.scope name = .ok built)
        (c.fields.filter (·.name == field)) (own.filter (·.name == field)) :=
    rel_filter (fun f built e => by
      show (f.name == field) = true ↔ (built.name == field) = true
      rw [(FieldDeclaration.of_build e).1]) each
  have declares (field : String) : own.any (·.name == field) = c.declares field := by
    rw [ClassDeclaration.declares, Bool.eq_iff_iff, any_eq_true, any_eq_true,
      ← length_filter_pos_iff, ← length_filter_pos_iff, (named field).length_eq]
  refine ⟨fun field owner found => ?_, fun field absent => ?_, ?_⟩
  · rw [filter_inherit, declares]
    rw [find?_cons] at found
    cases hc : c.declares field with
    | true =>
      rw [hc] at found
      obtain rfl := Option.some.inj found
      exact named field
    | false =>
      rw [hc] at found
      exact h.nearest field owner found
  · rw [filter_inherit, declares]
    rw [find?_cons] at absent
    cases hc : c.declares field with
    | true => simp [hc] at absent
    | false =>
      rw [hc] at absent
      exact h.undeclared field absent
  · obtain ⟨parts, rfl, owned⟩ := h.ordered
    refine ⟨own :: parts.map (List.filter fun f => !own.any (·.name == f.name)), ?_, ?_⟩
    · rw [inherit]
      simp
    · refine .cons (fun field hf => ?_) (forall₂_map_right_iff.2 (owned.imp ?_))
      · exact exists_of_forall₂ each field hf
      · exact fun owner part ht field hf => ht field (mem_of_mem_filter hf)

theorem Walk.flattened (walk : d.Walk pending name) {fields : List Field}
    (h : d.fieldsFrom patterns pending name = .ok fields) :
    ∃ chain, d.Ancestry name chain ∧ d.Flattened patterns chain fields := by
  induction walk generalizing fields with
  | undeclared met absent =>
    rw [fieldsFrom_of_met met, absent] at h
    cases h
    exact ⟨[], .undeclared absent, flattened_nil⟩
  | circle met declared again =>
    rw [fieldsFrom_of_met met, declared] at h
    cases h
  | root found declared last =>
    rw [fieldsFrom_of_root found last] at h
    obtain ⟨own, built, h⟩ := bind_eq_ok h
    cases h
    exact ⟨_, .root declared last, flattened_nil.cons built⟩
  | child found declared next above ih =>
    rw [fieldsFrom_of_child found next] at h
    obtain ⟨inherited, inner, h⟩ := bind_eq_ok h
    obtain ⟨own, built, h⟩ := bind_eq_ok h
    cases h
    obtain ⟨chain, ancestry, flattened⟩ := ih inner
    exact ⟨_, .child declared next ancestry, flattened.cons built⟩

/-! ## Whole schemas -/

/-- Declarations of which each can be read on its own: the categories of types are known, patterns
are well formed in their language, and the types of fields have an end. -/
structure Readable (d : Declarations) (patterns : PatternLanguage) : Prop where
  categories : ∀ t ∈ d.types, Category.ofName? t.2.category ≠ none
  patterns : ∀ name c, d.classes.lookup name = some c → ∀ f ∈ c.fields,
    f.isPattern = true → patterns (anchored f.name) ≠ none
  types : ∀ name c, d.classes.lookup name = some c → ∀ f ∈ c.fields,
    ¬ FieldType.Circular d.scope f.type

theorem Readable.own (readable : d.Readable patterns)
    (declared : d.classes.lookup name = some c) :
    ∃ own, c.fields.mapM (·.build patterns d.scope name) = .ok own := by
  refine mapM_eq_ok_of_forall fun f hf => FieldDeclaration.exists_build_iff.2 ?_
  exact ⟨readable.patterns name c declared f hf, readable.types name c declared f hf⟩

theorem Walk.ok_or_cyclic (readable : d.Readable patterns) (walk : d.Walk pending name) :
    (∃ fields, d.fieldsFrom patterns pending name = .ok fields) ∨
      d.fieldsFrom patterns pending name = .error .cyclicInheritance := by
  induction walk with
  | undeclared met absent =>
    rw [fieldsFrom_of_met met, absent]
    exact .inl ⟨_, rfl⟩
  | circle met declared again =>
    rw [fieldsFrom_of_met met, declared]
    exact .inr rfl
  | root found declared last =>
    obtain ⟨own, built⟩ := readable.own declared
    rw [fieldsFrom_of_root found last, built]
    exact .inl ⟨_, rfl⟩
  | child found declared next above ih =>
    rw [fieldsFrom_of_child found next]
    rcases ih with ⟨inherited, inner⟩ | failed
    · obtain ⟨own, built⟩ := readable.own declared
      refine .inl ⟨inherit inherited own, ?_⟩
      rw [inner]
      exact congrArg (· >>= fun own => .ok (inherit inherited own)) built
    · rw [failed]
      exact .inr rfl

theorem build_eq (d : Declarations) (patterns : PatternLanguage) :
    d.build patterns = d.types.mapM (fun t => t.2.build t.1) >>= fun types =>
      d.classes.mapM (fun c =>
        d.fieldsFrom patterns d.classes c.1 >>= fun fields => .ok (ObjectClass.mk c.1 fields)) >>=
        fun classes => .ok ⟨types, classes, d.enums⟩ :=
  rfl

theorem mem_of_lookup (declared : d.classes.lookup name = some c) : (name, c) ∈ d.classes := by
  obtain ⟨before, after, e, -⟩ := lookup_eq_some_iff.1 declared
  simp [e]

/-- The class of a schema that is built, with the fields that are found for it. -/
theorem fieldsFrom_of_build (h : d.build patterns = .ok schema)
    (declared : d.classes.lookup name = some c) :
    ∃ fields, d.fieldsFrom patterns d.classes name = .ok fields ∧
      schema.class? name = some ⟨name, fields⟩ := by
  obtain ⟨types, -, h⟩ := bind_eq_ok h
  obtain ⟨classes, built, h⟩ := bind_eq_ok h
  cases h
  have each := forall₂_of_mapM_eq_ok built
  obtain ⟨own, mem, e⟩ := exists_of_forall₂ (List.Forall₂.flip each) _ (mem_of_lookup declared)
  obtain ⟨fields, found, e⟩ := bind_eq_ok e
  cases e
  refine ⟨fields, found, ?_⟩
  -- the first class with the name is built from the same fields
  have some : (classes.find? (·.name == name)).isSome = true :=
    find?_isSome.2 ⟨_, mem, by simp⟩
  obtain ⟨first, hfirst⟩ := Option.isSome_iff_exists.1 some
  obtain ⟨entry, -, e⟩ := exists_of_forall₂ each first (mem_of_find?_eq_some hfirst)
  obtain ⟨fields', found', e⟩ := bind_eq_ok e
  cases e
  have same : entry.1 = name := by simpa using find?_some hfirst
  rw [same, found] at found'
  cases found'
  rw [ObjectSchema.class?, hfirst, same]

theorem readable_of_build (h : d.build patterns = .ok schema) : d.Readable patterns := by
  have fields (name : String) (c : ClassDeclaration) (declared : d.classes.lookup name = some c)
      (f : FieldDeclaration) (hf : f ∈ c.fields) :
      ∃ field, f.build patterns d.scope name = .ok field := by
    obtain ⟨fields, found, -⟩ := fieldsFrom_of_build h declared
    rw [fieldsFrom_eq declared] at found
    obtain ⟨inherited, -, found⟩ := bind_eq_ok found
    obtain ⟨own, built, -⟩ := bind_eq_ok found
    exact exists_of_mapM_eq_ok built f hf
  refine ⟨fun t ht unknown => ?_, fun name c declared f hf => ?_, fun name c declared f hf => ?_⟩
  · obtain ⟨types, built, -⟩ := bind_eq_ok h
    obtain ⟨type, e⟩ := exists_of_mapM_eq_ok built t ht
    simp only [TypeDeclaration.build, unknown] at e
    cases e
  · exact (FieldDeclaration.exists_build_iff.1 (fields name c declared f hf)).1
  · exact (FieldDeclaration.exists_build_iff.1 (fields name c declared f hf)).2

theorem Readable.types_built (readable : d.Readable patterns) :
    ∃ types, d.types.mapM (fun t => t.2.build t.1) = .ok types := by
  refine mapM_eq_ok_of_forall fun t ht => ?_
  unfold TypeDeclaration.build
  split
  · next unknown => exact absurd unknown (readable.categories t ht)
  · exact ⟨_, rfl⟩

theorem circle_of_build (h : d.build patterns = .error .cyclicInheritance) :
    ∃ name, TransGen d.Extends name name := by
  rw [build_eq] at h
  rcases bind_eq_error h with types | ⟨types, -, h⟩
  · obtain ⟨t, -, e⟩ := exists_of_mapM_eq_error types
    unfold TypeDeclaration.build at e
    split at e <;> cases e
  · rcases bind_eq_error h with classes | ⟨classes, -, h⟩
    · obtain ⟨entry, -, e⟩ := exists_of_mapM_eq_error classes
      rcases bind_eq_error e with failed | ⟨fields, -, e⟩
      · obtain ⟨again, -, circle⟩ := fieldsFrom_cyclic_iff.1 failed
        exact ⟨again, circle⟩
      · cases e
    · cases h

theorem Readable.build_cases (readable : d.Readable patterns) :
    (∃ schema, d.build patterns = .ok schema) ∨ d.build patterns = .error .cyclicInheritance := by
  obtain ⟨types, built⟩ := readable.types_built
  rw [build_eq, built]
  cases outcome : d.classes.mapM (fun c =>
      d.fieldsFrom patterns d.classes c.1 >>= fun fields => .ok (ObjectClass.mk c.1 fields)) with
  | ok classes => exact .inl ⟨⟨types, classes, d.enums⟩, rfl⟩
  | error fault =>
    obtain ⟨entry, -, e⟩ := exists_of_mapM_eq_error outcome
    rcases bind_eq_error e with failed | ⟨fields, -, e⟩
    · rcases (walk_start d entry.1).ok_or_cyclic readable with ⟨fields, found⟩ | cyclic
      · rw [failed] at found
        cases found
      · rw [failed] at cyclic
        cases cyclic
        exact .inr rfl
    · cases e

theorem not_circle_of_build (h : d.build patterns = .ok schema) :
    ¬ ∃ name, TransGen d.Extends name name := by
  rintro ⟨name, circle⟩
  obtain ⟨parent, ⟨c, declared, -⟩, -⟩ := TransGen.head'_iff.1 circle
  obtain ⟨fields, found, -⟩ := fieldsFrom_of_build h declared
  rw [fieldsFrom_cyclic_iff.2 ⟨name, .refl, circle⟩] at found
  cases found

end Declarations

/-- Whatever the language of patterns, declarations that can each be read make a schema, unless some
class extends itself in one or more steps; then this is the fault. In a schema the fields of a class
with some name are those of the nearest class above it that declares any, itself included, and the
fields of farther classes stand before those of nearer ones. -/
theorem inherited_fields_nearest (d : Declarations) (patterns : PatternLanguage) :
    (d.Readable patterns →
      (d.build patterns = .error .cyclicInheritance ↔ ∃ name, TransGen d.Extends name name)) ∧
    ((∃ schema, d.build patterns = .ok schema) ↔
      d.Readable patterns ∧ ¬ ∃ name, TransGen d.Extends name name) ∧
    ∀ schema, d.build patterns = .ok schema → ∀ name c, d.classes.lookup name = some c →
      ∃ chain fields, d.Ancestry name chain ∧ schema.class? name = some ⟨name, fields⟩ ∧
        d.Flattened patterns chain fields := by
  refine ⟨fun readable => ⟨Declarations.circle_of_build, fun circle => ?_⟩, ⟨?_, ?_⟩, ?_⟩
  · rcases readable.build_cases with ⟨schema, built⟩ | failed
    · exact absurd circle (Declarations.not_circle_of_build built)
    · exact failed
  · rintro ⟨schema, built⟩
    exact ⟨Declarations.readable_of_build built, Declarations.not_circle_of_build built⟩
  · rintro ⟨readable, free⟩
    exact readable.build_cases.resolve_right fun failed =>
      free (Declarations.circle_of_build failed)
  · intro schema built name c declared
    obtain ⟨fields, found, stored⟩ := Declarations.fieldsFrom_of_build built declared
    obtain ⟨chain, ancestry, flattened⟩ := (Declarations.walk_start d name).flattened found
    exact ⟨chain, fields, ancestry, stored, flattened⟩

/-- Two classes that extend each other; and a class that declares a field of its parent twice, and a
pattern that is spelled as a plain field of the parent. The parent has a pattern of its own, and
extends a class that is not declared. -/
theorem inherited_fields_nearest_shadowed :
    let circular : Declarations :=
      ⟨[], [("A", ⟨some "B", []⟩), ("B", ⟨some "A", []⟩)], [], []⟩
    let sound : Declarations :=
      ⟨[], [("Action", ⟨some "Base", [⟨"tier", "float", false, false, false⟩,
            ⟨"stat.*", "float", false, true, false⟩, ⟨"tier", "string", true, false, false⟩]⟩),
          ("Base", ⟨some "Lost", [⟨"tier", "int", false, false, false⟩,
            ⟨"stat.*", "int", false, false, false⟩, ⟨"res.*", "int", false, true, false⟩,
            ⟨"ID", "string", false, false, false⟩]⟩)], [], []⟩
    (circular.Readable Pattern.language ∧ TransGen circular.Extends "A" "A" ∧
      circular.build Pattern.language = .error .cyclicInheritance) ∧
    ∃ schema chain fields, sound.build Pattern.language = .ok schema ∧
      sound.Ancestry "Action" chain ∧ schema.class? "Action" = some ⟨"Action", fields⟩ ∧
      sound.Flattened Pattern.language chain fields ∧
      fields.map (fun f => (f.name, f.type, f.pattern.map (· "stat_a"))) =
        [("res.*", .integer, some false), ("ID", .string, none), ("tier", .float, none),
          ("stat.*", .float, some true), ("tier", .string, none)] := by
  intro circular sound
  have empty (name : String) (c : ClassDeclaration)
      (declared : circular.classes.lookup name = some c) : c.fields = [] := by
    have mem := Declarations.mem_of_lookup declared
    simp only [circular, mem_cons, Prod.mk.injEq, List.not_mem_nil, or_false] at mem
    rcases mem with ⟨-, rfl⟩ | ⟨-, rfl⟩ <;> rfl
  have readable : circular.Readable Pattern.language :=
    ⟨by simp [circular], fun name c declared => by simp [empty name c declared],
      fun name c declared => by simp [empty name c declared]⟩
  have up : circular.Extends "A" "B" := ⟨⟨some "B", []⟩, by decide, rfl⟩
  have down : circular.Extends "B" "A" := ⟨⟨some "A", []⟩, by decide, rfl⟩
  have circle : TransGen circular.Extends "A" "A" := .head up (.single down)
  refine ⟨⟨readable, circle,
    ((inherited_fields_nearest circular Pattern.language).1 readable).2 ⟨"A", circle⟩⟩, ?_⟩
  have shown : ((sound.build Pattern.language).toOption.bind (·.class? "Action")).map
      (fun c => c.fields.map fun f => (f.name, f.type, f.pattern.map (· "stat_a"))) =
        some [("res.*", .integer, some false), ("ID", .string, none), ("tier", .float, none),
          ("stat.*", .float, some true), ("tier", .string, none)] := by decide +kernel
  cases built : sound.build Pattern.language with
  | error fault =>
    rw [built] at shown
    cases shown
  | ok schema =>
    obtain ⟨chain, fields, ancestry, stored, flattened⟩ :=
      (inherited_fields_nearest sound Pattern.language).2.2 schema built "Action" _ rfl
    refine ⟨schema, chain, fields, rfl, ancestry, stored, flattened, ?_⟩
    rw [built] at shown
    simpa [Except.toOption, stored] using shown

end ModCheck
