import Mathlib.Data.Finset.Card
import Mathlib.Logic.Relation
import ModCheck.Proofs.ValueReplacements
import ModCheck.Schema.Declaration

/-
  When the type of a declared text is found. Opening lists one inside the other takes a declared
  text to the next (`Opens`), and `Resolves` is the type that comes out where this ends. Whatever
  is opened was cut out of the declared text or of what an alias leads to (`mem_pool_of_opens`), so
  only so many texts can come up, and a type that is not found within that many steps comes to a
  text for the second time (`circular_of_resolve?_eq_none`). Aliases that lead in a circle are no
  harm on their own, since only so many are followed in a row; but one that leads to a list of
  itself is opened without end.
-/

namespace ModCheck

open List
open Relation (ReflTransGen TransGen)

/-- What has a size that is less after every step leads into no circle. -/
theorem not_circle_of_size {α β : Type} {R : α → α → Prop} {P : α → β → Prop} (size : β → Nat)
    (unique : ∀ {a x y}, P a x → P a y → x = y)
    (step : ∀ {a b x}, P a x → R a b → ∃ y, P b y ∧ size y < size x) {a again : α} {x : β}
    (h : P a x) (path : ReflTransGen R a again) : ¬ TransGen R again again := by
  have smaller {a b : α} {x : β} (h : P a x) (path : TransGen R a b) :
      ∃ y, P b y ∧ size y < size x := by
    induction path with
    | single next => exact step h next
    | tail _ next ih =>
      obtain ⟨y, hy, lt⟩ := ih
      obtain ⟨z, hz, lt'⟩ := step hy next
      exact ⟨z, hz, lt'.trans lt⟩
  intro circle
  obtain ⟨y, hy⟩ : ∃ y, P again y := by
    rcases Relation.reflTransGen_iff_eq_or_transGen.1 path with rfl | path
    · exact ⟨x, h⟩
    · exact (smaller h path).imp fun _ => And.left
  obtain ⟨z, hz, lt⟩ := smaller hy circle
  rw [unique hy hz] at lt
  exact Nat.lt_irrefl _ lt

namespace FieldType

variable {declared : String} {type : FieldType}

/-! ## Opening lists -/

/-- The name that a declared text leads to. -/
def Scope.nameOf (scope : Scope) (declared : String) : String :=
  followAliases scope.aliases maxAliases (String.ofList (Text.trim declared.toList))

/-- The declared text of the elements, for a text that leads to a list. -/
def Scope.element? (scope : Scope) (declared : String) : Option String :=
  (listElement? (scope.nameOf declared).toList).map String.ofList

/-- From the declared text of a list to that of its elements. -/
def Opens (scope : Scope) (declared inner : String) : Prop :=
  scope.element? declared = some inner

instance (scope : Scope) (declared inner : String) : Decidable (Opens scope declared inner) :=
  inferInstanceAs (Decidable (_ = _))

/-- The type of a declared text, however many lists stand inside each other. -/
inductive Resolves (scope : Scope) : String → FieldType → Prop
  | name {declared : String} (plain : scope.element? declared = none) :
      Resolves scope declared (ofName scope.enums (scope.nameOf declared))
  | list {declared inner : String} {type : FieldType} (opens : Opens scope declared inner)
      (inside : Resolves scope inner type) : Resolves scope declared (.list type)

/-- A text comes up from which opening lists leads back to it. -/
def Circular (scope : Scope) (declared : String) : Prop :=
  ∃ again, ReflTransGen (Opens scope) declared again ∧ TransGen (Opens scope) again again

variable {scope : Scope}

theorem resolveWithin_succ (depth : Nat) (declared : String) :
    resolveWithin scope (depth + 1) declared =
      match scope.element? declared with
      | some inner => (resolveWithin scope depth inner).map .list
      | none => some (ofName scope.enums (scope.nameOf declared)) := by
  unfold Scope.element? Scope.nameOf
  rw [resolveWithin]
  split
  · next h => rw [h]; rfl
  · next h => rw [h]; rfl

theorem resolves_of_resolveWithin {depth : Nat}
    (h : resolveWithin scope depth declared = some type) : Resolves scope declared type := by
  induction depth generalizing declared type with
  | zero => simp [resolveWithin] at h
  | succ depth ih =>
    rw [resolveWithin_succ] at h
    cases e : scope.element? declared with
    | none =>
      rw [e] at h
      obtain rfl := Option.some.inj h
      exact .name e
    | some inner =>
      rw [e] at h
      obtain ⟨type, inside, rfl⟩ := Option.map_eq_some_iff.1 h
      exact .list e (ih inside)

theorem Resolves.unique {type' : FieldType} (h : Resolves scope declared type)
    (h' : Resolves scope declared type') : type = type' := by
  induction h generalizing type' with
  | name plain =>
    cases h' with
    | name => rfl
    | list opens => exact absurd (plain.symm.trans opens) (by simp)
  | list opens inside ih =>
    cases h' with
    | name plain => exact absurd (plain.symm.trans opens) (by simp)
    | list opens' inside' =>
      obtain rfl := Option.some.inj (opens.symm.trans opens')
      rw [ih inside']

/-- Each list that is opened is one less in the type. -/
theorem Resolves.not_circular (h : Resolves scope declared type) : ¬ Circular scope declared := by
  rintro ⟨again, path, circle⟩
  refine not_circle_of_size (P := Resolves scope) sizeOf Resolves.unique
    (fun resolves opens => ?_) h path circle
  cases resolves with
  | name plain => exact absurd (plain.symm.trans opens) (by simp)
  | list opens' inside =>
    obtain rfl := Option.some.inj (opens'.symm.trans opens)
    exact ⟨_, inside, by simp⟩

/-! ## Texts that can come up -/

theorem length_of_listElement? {name inner : List Char} (h : listElement? name = some inner) :
    inner.length < name.length := by
  unfold listElement? at h
  split at h
  · split at h
    · obtain rfl := Option.some.inj h
      simp
      omega
    · simp at h
  · simp at h

set_option linter.unusedVariables false in
/-- The texts of elements that come up in a name by opening lists alone. -/
def layers (name : List Char) : List String :=
  match h : listElement? name with
  | none => []
  | some inner => String.ofList inner :: layers (Text.trim inner)
termination_by name.length
decreasing_by
  have := length_trim_le inner
  have := length_of_listElement? h
  omega

theorem layers_eq_cons {name inner : List Char} (h : listElement? name = some inner) :
    layers name = String.ofList inner :: layers (Text.trim inner) := by
  rw [layers]
  split
  · next h' => simp [h] at h'
  · next h' =>
    rw [h] at h'
    rw [Option.some.inj h']

theorem length_layers_le (name : List Char) : (layers name).length ≤ name.length := by
  fun_induction layers name with
  | case1 => exact Nat.zero_le _
  | case2 name inner h ih =>
    have shorter := length_of_listElement? h
    have trimmed := length_trim_le inner
    rw [length_cons]
    omega

/-- All texts that can come up while a declared text is resolved. -/
def pool (scope : Scope) (declared : String) : List String :=
  layers (Text.trim declared.toList) ++ scope.aliases.flatMap fun a => layers a.2.toList

theorem length_pool_le (scope : Scope) (declared : String) :
    (pool scope declared).length ≤ declared.length + aliasLength scope.aliases := by
  have own : (layers (Text.trim declared.toList)).length ≤ declared.length := by
    have trimmed := length_trim_le declared.toList
    rw [String.length_toList] at trimmed
    exact (length_layers_le _).trans (by omega)
  have led (aliases : List (String × String)) :
      (aliases.flatMap fun a => layers a.2.toList).length ≤ aliasLength aliases := by
    induction aliases with
    | nil => exact Nat.le_refl 0
    | cons a aliases ih =>
      have here : (layers a.2.toList).length ≤ a.2.length :=
        (length_layers_le _).trans_eq (String.length_toList ..)
      rw [flatMap_cons, length_append, aliasLength]
      omega
  have := led scope.aliases
  rw [pool, length_append]
  omega

/-- Following aliases leads nowhere, or to what one of them stands for. -/
theorem followAliases_cases (aliases : List (String × String)) (n : Nat) (name : String) :
    followAliases aliases n name = name ∨ ∃ a ∈ aliases, followAliases aliases n name = a.2 := by
  induction n generalizing name with
  | zero => exact .inl rfl
  | succ n ih =>
    rw [followAliases]
    split
    · next target found =>
      split
      · exact .inl rfl
      · obtain ⟨before, after, rfl, -⟩ := lookup_eq_some_iff.1 found
        refine .inr ?_
        rcases ih target with same | led
        · exact ⟨(name, target), by simp, same⟩
        · exact led
    · exact .inl rfl

/-- What an opened list holds is in the pool of the text that it came from, and with it all that
can come up from there. -/
theorem mem_pool_of_opens {a b : String} (opens : Opens scope a b)
    (h : layers (Text.trim a.toList) ⊆ pool scope declared) :
    b ∈ pool scope declared ∧ layers (Text.trim b.toList) ⊆ pool scope declared := by
  obtain ⟨inner, cut, rfl⟩ := Option.map_eq_some_iff.1 opens
  have all : layers (scope.nameOf a).toList ⊆ pool scope declared := by
    rcases followAliases_cases scope.aliases maxAliases (String.ofList (Text.trim a.toList)) with
      same | ⟨alias', mem, led⟩
    · rw [Scope.nameOf, same, String.toList_ofList]
      exact h
    · rw [Scope.nameOf, led]
      exact fun text ht => mem_append_right _ (mem_flatMap.2 ⟨alias', mem, ht⟩)
  rw [layers_eq_cons cut] at all
  rw [String.toList_ofList]
  exact cons_subset.1 all

/-! ## Opening lists for a long time -/

/-- Texts of which each is found in the list of the one before, for `n` steps. -/
def Run (scope : Scope) (texts : Nat → String) (n : Nat) : Prop :=
  ∀ k < n, Opens scope (texts k) (texts (k + 1))

theorem exists_run {depth : Nat} (h : resolveWithin scope depth declared = none) :
    ∃ texts, texts 0 = declared ∧ Run scope texts depth := by
  induction depth generalizing declared with
  | zero => exact ⟨fun _ => declared, rfl, fun k hk => absurd hk (Nat.not_lt_zero k)⟩
  | succ depth ih =>
    rw [resolveWithin_succ] at h
    cases e : scope.element? declared with
    | none => simp [e] at h
    | some inner =>
      rw [e] at h
      obtain ⟨texts, start, run⟩ := ih (Option.map_eq_none_iff.1 h)
      refine ⟨fun k => k.casesOn declared texts, rfl, fun k hk => ?_⟩
      cases k with
      | zero =>
        show Opens scope declared (texts 0)
        rw [start]
        exact e
      | succ k => exact run k (Nat.lt_of_succ_lt_succ hk)

theorem Run.path {texts : Nat → String} {n i j : Nat} (run : Run scope texts n) (hij : i < j)
    (hj : j ≤ n) : TransGen (Opens scope) (texts i) (texts j) := by
  induction j, hij using Nat.le_induction with
  | base => exact .single (run i (by omega))
  | succ j _ ih => exact (ih (by omega)).tail (run j (by omega))

theorem Run.mem_pool {texts : Nat → String} {n : Nat} (run : Run scope texts n) {k : Nat}
    (hk : k < n) : texts (k + 1) ∈ pool scope (texts 0) := by
  have step (k : Nat) (hk : k < n) : texts (k + 1) ∈ pool scope (texts 0) ∧
      layers (Text.trim (texts (k + 1)).toList) ⊆ pool scope (texts 0) := by
    induction k with
    | zero => exact mem_pool_of_opens (run 0 hk) (subset_append_left _ _)
    | succ k ih => exact mem_pool_of_opens (run (k + 1) hk) (ih (by omega)).2
  exact (step k hk).1

/-- A type that is not found comes to some text for the second time. -/
theorem circular_of_resolve?_eq_none (h : resolve? scope declared = none) :
    Circular scope declared := by
  obtain ⟨texts, rfl, run⟩ := exists_run h
  have few : (pool scope (texts 0)).toFinset.card <
      (Finset.range (depthBound scope (texts 0))).card := by
    have := (toFinset_card_le _).trans (length_pool_le scope (texts 0))
    rw [Finset.card_range, depthBound]
    omega
  have within : Set.MapsTo (fun k => texts (k + 1))
      (Finset.range (depthBound scope (texts 0))) (pool scope (texts 0)).toFinset := by
    intro k hk
    exact mem_toFinset.2 (run.mem_pool (Finset.mem_range.1 hk))
  obtain ⟨i, hi, j, hj, hne, same⟩ := Finset.exists_ne_map_eq_of_card_lt_of_maps_to few within
  -- of the two places with one text, the one that comes first
  wlog hij : i < j generalizing i j
  · exact this j hj i hi hne.symm same.symm (by omega)
  have hj' := Finset.mem_range.1 hj
  have circle := run.path (Nat.succ_lt_succ hij) hj'
  refine ⟨texts (i + 1), (run.path (Nat.succ_pos i) (by omega)).to_reflTransGen, ?_⟩
  exact (congrArg (TransGen (Opens scope) (texts (i + 1))) same).mpr circle

theorem resolve?_eq_some_iff :
    resolve? scope declared = some type ↔ Resolves scope declared type := by
  constructor
  · exact resolves_of_resolveWithin
  · intro h
    cases e : resolve? scope declared with
    | none => exact absurd (circular_of_resolve?_eq_none e) h.not_circular
    | some type' => rw [(resolves_of_resolveWithin e).unique h]

theorem resolve?_ends_iff :
    (∃ type, resolve? scope declared = some type) ↔ ¬ Circular scope declared := by
  constructor
  · rintro ⟨type, h⟩
    exact (resolve?_eq_some_iff.1 h).not_circular
  · intro h
    exact Option.ne_none_iff_exists'.1 fun e => h (circular_of_resolve?_eq_none e)

end FieldType

/-! ## Building the schema -/

section

variable {α β ε : Type} {f : α → Except ε β} {l : List α}

theorem bind_eq_ok {x : Except ε α} {b : β} (h : x >>= f = .ok b) :
    ∃ a, x = .ok a ∧ f a = .ok b := by
  cases x with
  | error e => cases h
  | ok a => exact ⟨a, rfl, h⟩

theorem bind_eq_error {x : Except ε α} {e : ε} (h : x >>= f = .error e) :
    x = .error e ∨ ∃ a, x = .ok a ∧ f a = .error e := by
  cases x with
  | error e' =>
    cases h
    exact .inl rfl
  | ok a => exact .inr ⟨a, rfl, h⟩

theorem forall₂_of_mapM_eq_ok {bs : List β} (h : l.mapM f = .ok bs) :
    List.Forall₂ (fun a b => f a = .ok b) l bs := by
  induction l generalizing bs with
  | nil =>
    cases h
    exact .nil
  | cons a l ih =>
    rw [mapM_cons] at h
    obtain ⟨b, first, h⟩ := bind_eq_ok h
    obtain ⟨bs, rest, h⟩ := bind_eq_ok h
    cases h
    exact .cons first (ih rest)

theorem exists_of_mapM_eq_ok {bs : List β} (h : l.mapM f = .ok bs) : ∀ a ∈ l, ∃ b, f a = .ok b :=
  ((forall₂_and_left _ _).1 ((forall₂_of_mapM_eq_ok h).imp fun _ b e => ⟨⟨b, e⟩, e⟩)).1

theorem exists_of_mapM_eq_error {e : ε} (h : l.mapM f = .error e) : ∃ a ∈ l, f a = .error e := by
  induction l with
  | nil => cases h
  | cons a l ih =>
    rw [mapM_cons] at h
    rcases bind_eq_error h with first | ⟨b, -, h⟩
    · exact ⟨a, mem_cons_self, first⟩
    · rcases bind_eq_error h with rest | ⟨bs, -, h⟩
      · obtain ⟨a', mem, e⟩ := ih rest
        exact ⟨a', mem_cons_of_mem _ mem, e⟩
      · cases h

end

namespace FieldDeclaration

variable {patterns : PatternLanguage} {scope : FieldType.Scope} {className : String}
  {f : FieldDeclaration}

/-- What becomes of the declaration of a field: a field, or a fault in its pattern or its type. -/
theorem build_cases (f : FieldDeclaration) (patterns : PatternLanguage) (scope : FieldType.Scope)
    (className : String) :
    (∃ pattern type, (f.isPattern = true → patterns (anchored f.name) ≠ none) ∧
        FieldType.resolve? scope f.type = some type ∧
        f.build patterns scope className = .ok ⟨f.name, type, f.isVirtual, pattern, f.allowsX⟩) ∨
      (f.isPattern = true ∧ patterns (anchored f.name) = none ∧
        f.build patterns scope className = .error (.invalidPattern f.name className)) ∨
      (FieldType.resolve? scope f.type = none ∧
        f.build patterns scope className = .error (.endlessType f.type)) := by
  unfold build FieldDeclaration.pattern
  cases hp : f.isPattern <;> cases hr : patterns (anchored f.name) <;>
    cases ht : FieldType.resolve? scope f.type <;> simp

theorem of_build {field : Field} (h : f.build patterns scope className = .ok field) :
    field.name = f.name ∧ ∃ type, FieldType.resolve? scope f.type = some type := by
  rcases f.build_cases patterns scope className with ⟨_, type, -, found, e⟩ | ⟨-, -, e⟩ | ⟨-, e⟩
  · cases e.symm.trans h
    exact ⟨rfl, type, found⟩
  · cases e.symm.trans h
  · cases e.symm.trans h

theorem endless_of_build {declared : String}
    (h : f.build patterns scope className = .error (.endlessType declared)) :
    f.type = declared ∧ FieldType.resolve? scope declared = none := by
  rcases f.build_cases patterns scope className with ⟨_, _, -, -, e⟩ | ⟨-, -, e⟩ | ⟨none, e⟩
  · cases e.symm.trans h
  · cases e.symm.trans h
  · cases e.symm.trans h
    exact ⟨rfl, none⟩

end FieldDeclaration

namespace Declarations

variable {c : ClassDeclaration} {name : String} {pending : List (String × ClassDeclaration)}

variable {d : Declarations} {patterns : PatternLanguage}

/-- The fields that a class has from the one it extends. -/
def inheritedFields (d : Declarations) (patterns : PatternLanguage)
    (pending : List (String × ClassDeclaration)) (name : String) (c : ClassDeclaration) :
    Except SchemaFault (List Field) :=
  match c.parent with
  | none => .ok []
  | some parent => d.fieldsFrom patterns (without pending name) parent

theorem fieldsFrom_eq (found : pending.lookup name = some c) :
    d.fieldsFrom patterns pending name =
      d.inheritedFields patterns pending name c >>= fun inherited =>
        c.fields.mapM (·.build patterns d.scope name) >>= fun own =>
          .ok (inherit inherited own) := by
  rw [fieldsFrom]
  split
  · next h => simp [found] at h
  · next c' h =>
    rw [found] at h
    obtain rfl := Option.some.inj h
    unfold inheritedFields
    cases c.parent <;> rfl

theorem resolves_of_fieldsFrom (found : pending.lookup name = some c) {fields : List Field}
    (h : d.fieldsFrom patterns pending name = .ok fields) :
    ∀ f ∈ c.fields, ∃ type, FieldType.resolve? d.scope f.type = some type := by
  rw [fieldsFrom_eq found] at h
  obtain ⟨inherited, -, h⟩ := bind_eq_ok h
  obtain ⟨own, built, -⟩ := bind_eq_ok h
  intro f hf
  obtain ⟨field, e⟩ := exists_of_mapM_eq_ok built f hf
  exact (FieldDeclaration.of_build e).2

/-- A class whose fields cannot be found for an endless type has that type in a field of its own or
inherits it. -/
theorem endless_of_fieldsFrom {declared : String}
    (h : d.fieldsFrom patterns pending name = .error (.endlessType declared)) :
    FieldType.resolve? d.scope declared = none ∧
      ∃ c ∈ pending, ∃ f ∈ c.2.fields, f.type = declared := by
  induction hn : pending.length using Nat.strong_induction_on generalizing pending name with
  | _ n ih =>
    cases found : pending.lookup name with
    | none =>
      rw [fieldsFrom] at h
      split at h
      · split at h <;> cases h
      · next h' => simp [found] at h'
    | some c =>
      rw [fieldsFrom_eq found] at h
      rcases bind_eq_error h with above | ⟨inherited, -, h⟩
      · unfold inheritedFields at above
        cases hc : c.parent with
        | none => rw [hc] at above; cases above
        | some parent =>
          rw [hc] at above
          obtain ⟨endless, c', mem, declares⟩ :=
            ih _ (hn ▸ length_without_lt found) above rfl
          exact ⟨endless, c', mem_of_mem_filter mem, declares⟩
      · rcases bind_eq_error h with built | ⟨own, -, h⟩
        · obtain ⟨f, hf, e⟩ := exists_of_mapM_eq_error built
          obtain ⟨type, endless⟩ := FieldDeclaration.endless_of_build e
          obtain ⟨before, after, rfl, -⟩ := lookup_eq_some_iff.1 found
          exact ⟨endless, (name, c), by simp, f, hf, type⟩
        · cases h

theorem resolves_of_build {schema : ObjectSchema} (h : d.build patterns = .ok schema)
    (found : d.classes.lookup name = some c) :
    ∀ f ∈ c.fields, ∃ type, FieldType.resolve? d.scope f.type = some type := by
  obtain ⟨types, -, h⟩ := bind_eq_ok h
  obtain ⟨classes, built, -⟩ := bind_eq_ok h
  have mem : (name, c) ∈ d.classes := by
    obtain ⟨before, after, e, -⟩ := lookup_eq_some_iff.1 found
    simp [e]
  obtain ⟨class', e⟩ := exists_of_mapM_eq_ok built _ mem
  obtain ⟨fields, e, -⟩ := bind_eq_ok e
  exact resolves_of_fieldsFrom found e

theorem endless_of_build {declared : String}
    (h : d.build patterns = .error (.endlessType declared)) :
    FieldType.resolve? d.scope declared = none ∧
      ∃ c ∈ d.classes, ∃ f ∈ c.2.fields, f.type = declared := by
  rcases bind_eq_error h with types | ⟨types, -, h⟩
  · obtain ⟨⟨name, t⟩, -, e⟩ := exists_of_mapM_eq_error types
    dsimp only at e
    unfold TypeDeclaration.build at e
    split at e <;> cases e
  · rcases bind_eq_error h with classes | ⟨classes, -, h⟩
    · obtain ⟨⟨name, c⟩, -, e⟩ := exists_of_mapM_eq_error classes
      rcases bind_eq_error e with e | ⟨fields, -, e⟩
      · exact endless_of_fieldsFrom e
      · cases e
    · cases h

end Declarations

/-- The type of a declared text is found just if opening its lists never leads back to a text, and
then it is the one that opening them gives. A schema that is built has only such types in its
classes; one that fails to be for an endless type names a declared type that is none. -/
theorem resolution_ends_iff (d : Declarations) (patterns : PatternLanguage) (declared : String) :
    ((∃ type, FieldType.resolve? d.scope declared = some type) ↔
        ¬ FieldType.Circular d.scope declared) ∧
      (∀ type, FieldType.resolve? d.scope declared = some type ↔
        FieldType.Resolves d.scope declared type) ∧
      (∀ schema, d.build patterns = .ok schema → ∀ name c, d.classes.lookup name = some c →
        ∀ f ∈ c.fields, ¬ FieldType.Circular d.scope f.type) ∧
      (d.build patterns = .error (.endlessType declared) →
        FieldType.Circular d.scope declared ∧
          ∃ c ∈ d.classes, ∃ f ∈ c.2.fields, f.type = declared) := by
  refine ⟨FieldType.resolve?_ends_iff, fun type => FieldType.resolve?_eq_some_iff, ?_, ?_⟩
  · intro schema built name c found f hf
    exact FieldType.resolve?_ends_iff.1 (Declarations.resolves_of_build built found f hf)
  · intro failed
    obtain ⟨endless, declares⟩ := Declarations.endless_of_build failed
    exact ⟨FieldType.circular_of_resolve?_eq_none endless, declares⟩

/-- An alias that leads to a list of itself, as the type of a field. -/
theorem list_of_itself_endless :
    FieldType.Circular ⟨[("Path", "List<Path>")], []⟩ "Path" ∧
      (¬ ∃ type, FieldType.Resolves ⟨[("Path", "List<Path>")], []⟩ "Path" type) ∧
      ∀ patterns, Declarations.build ⟨[], [("C", ⟨none, [⟨"p", "Path", false, false, false⟩]⟩)],
        [("Path", "List<Path>")], []⟩ patterns = .error (.endlessType "Path") := by
  have circle : FieldType.Opens ⟨[("Path", "List<Path>")], []⟩ "Path" "Path" := by decide +kernel
  have circular : FieldType.Circular ⟨[("Path", "List<Path>")], []⟩ "Path" :=
    ⟨"Path", .refl, .single circle⟩
  refine ⟨circular, ?_, fun patterns => ?_⟩
  · rintro ⟨type, h⟩
    exact h.not_circular circular
  · have endless : FieldType.resolve? ⟨[("Path", "List<Path>")], []⟩ "Path" = none := by
      decide +kernel
    have fields : Declarations.fieldsFrom
        ⟨[], [("C", ⟨none, [⟨"p", "Path", false, false, false⟩]⟩)], [("Path", "List<Path>")], []⟩
        patterns [("C", ⟨none, [⟨"p", "Path", false, false, false⟩]⟩)] "C" =
          .error (.endlessType "Path") := by
      rw [Declarations.fieldsFrom_eq rfl]
      simp [Declarations.inheritedFields, Declarations.scope, FieldDeclaration.build,
        FieldDeclaration.pattern, endless, bind, Except.bind]
    simp [Declarations.build, fields, bind, Except.bind, pure, Except.pure]

end ModCheck
