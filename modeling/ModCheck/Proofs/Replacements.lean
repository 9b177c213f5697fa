import ModCheck.Suggestion.Unknown

/-
  Replacements that can be made together. `Compatible a b rs` says that the replacements `rs` lie
  in the characters `a` up to `b` of a value and that two of them are the same or keep apart. Sets
  of replacements in stretches that follow each other are compatible together
  (`Compatible.append`), which is how those of a value are put together from its parts.
-/

namespace ModCheck

open List

/-! ## Ranges -/

namespace CharRange

/-- A range that lies in `a` up to `b`; an empty one not at the ends. -/
structure Inside (r : CharRange) (a b : Nat) : Prop where
  lower : a ≤ r.start
  ordered : r.start ≤ r.stop
  upper : r.stop ≤ b
  after : a < r.stop
  before : r.start < b

/-- Whether a range ends before another starts; two empty ones are not at the same place. -/
def Before (r s : CharRange) : Prop :=
  r.stop ≤ s.start ∧ r.start < s.stop

def Apart (r s : CharRange) : Prop :=
  r.Before s ∨ s.Before r

theorem Inside.mono {r : CharRange} {a b c d : Nat} (h : r.Inside a b) (ha : c ≤ a) (hb : b ≤ d) :
    r.Inside c d := by
  obtain ⟨h₁, h₂, h₃, h₄, h₅⟩ := h
  constructor <;> omega

theorem Inside.shift {r : CharRange} {a b : Nat} (h : r.Inside a b) (n : Nat) :
    (r.shift n).Inside (a + n) (b + n) := by
  obtain ⟨h₁, h₂, h₃, h₄, h₅⟩ := h
  constructor <;> simp only [CharRange.shift] <;> omega

theorem inside_self {r : CharRange} (h : r.start < r.stop) : r.Inside r.start r.stop :=
  ⟨Nat.le_refl _, Nat.le_of_lt h, Nat.le_refl _, h, h⟩

theorem Apart.symm {r s : CharRange} (h : r.Apart s) : s.Apart r :=
  Or.symm h

theorem Apart.shift {r s : CharRange} (h : r.Apart s) (n : Nat) :
    (r.shift n).Apart (s.shift n) := by
  unfold Apart Before CharRange.shift at *
  dsimp only
  omega

theorem apart_of_inside {r s : CharRange} {a b c d : Nat} (hr : r.Inside a b) (hs : s.Inside c d)
    (h : b ≤ c) : r.Apart s := by
  left
  have := hr.upper
  have := hr.before
  have := hs.lower
  have := hs.after
  constructor <;> omega

end CharRange

/-! ## Replacements -/

/-- What to write at a range. -/
abbrev Replacement := CharRange × String

/-- The replacement of an issue. -/
def Issue.replaced (issue : Issue) : List Replacement :=
  issue.replacement.toList.map fun text => (issue.range, text)

/-- The replacements of issues. -/
def replacements (issues : List Issue) : List Replacement :=
  issues.flatMap Issue.replaced

theorem mem_replacements {issues : List Issue} {r : Replacement} :
    r ∈ replacements issues ↔ ∃ i ∈ issues, i.range = r.1 ∧ i.replacement = some r.2 := by
  simp only [replacements, Issue.replaced, mem_flatMap, mem_map, Option.mem_toList]
  constructor
  · rintro ⟨i, hi, text, ht, rfl⟩
    exact ⟨i, hi, rfl, ht⟩
  · rintro ⟨i, hi, hr, ht⟩
    exact ⟨i, hi, r.2, ht, by rw [hr]⟩

@[simp] theorem replacements_nil : replacements [] = [] := rfl

@[simp] theorem replacements_cons (i : Issue) (is : List Issue) :
    replacements (i :: is) = i.replaced ++ replacements is := rfl

@[simp] theorem replacements_append (is js : List Issue) :
    replacements (is ++ js) = replacements is ++ replacements js :=
  flatMap_append

theorem replacements_flatMap {α : Type} (f : α → List Issue) (xs : List α) :
    replacements (xs.flatMap f) = xs.flatMap fun x => replacements (f x) :=
  flatMap_assoc

/-- An issue has one replacement at most, at its range. -/
theorem exists_replaced (i : Issue) :
    ∃ one : Option Replacement, i.replaced = one.toList ∧ ∀ r, one = some r → r.1 = i.range := by
  refine ⟨i.replacement.map fun text => (i.range, text), ?_, ?_⟩
  · rw [Issue.replaced]
    cases i.replacement <;> rfl
  · intro r hr
    obtain ⟨text, -, rfl⟩ := Option.map_eq_some_iff.1 hr
    rfl

theorem replaced_of_none {i : Issue} (h : i.replacement = none) : i.replaced = [] := by
  rw [Issue.replaced, h]
  rfl

/-- Issues that offer nothing to write. -/
theorem replacements_eq_nil {issues : List Issue} (h : ∀ i ∈ issues, i.replacement = none) :
    replacements issues = [] :=
  flatMap_eq_nil_iff.2 fun i hi => replaced_of_none (h i hi)

theorem replacements_shift (issues : List Issue) (n : Nat) :
    replacements (issues.map (·.shift n)) =
      (replacements issues).map fun r => (r.1.shift n, r.2) := by
  rw [replacements, replacements, flatMap_map, map_flatMap]
  congr 1
  funext i
  rw [Issue.replaced, Issue.replaced, map_map]
  rfl

/-- Replacements that lie in `a` up to `b`, of which two are the same or keep apart. -/
structure Compatible (a b : Nat) (rs : List Replacement) : Prop where
  inside : ∀ r ∈ rs, r.1.Inside a b
  apart : ∀ r ∈ rs, ∀ s ∈ rs, r = s ∨ r.1.Apart s.1

namespace Compatible

variable {a b c d : Nat} {rs ss : List Replacement}

theorem nil (a b : Nat) : Compatible a b [] :=
  ⟨by simp, by simp⟩

theorem mono (h : Compatible a b rs) (ha : c ≤ a) (hb : b ≤ d) : Compatible c d rs :=
  ⟨fun r hr => (h.inside r hr).mono ha hb, h.apart⟩

theorem subset (h : Compatible a b ss) (hs : rs ⊆ ss) : Compatible a b rs :=
  ⟨fun r hr => h.inside r (hs hr), fun r hr s hs' => h.apart r (hs hr) s (hs hs')⟩

theorem singleton {r : Replacement} (h : r.1.Inside a b) : Compatible a b [r] := by
  refine ⟨fun s hs => ?_, fun s hs t ht => Or.inl ?_⟩
  · rwa [mem_singleton.1 hs]
  · rw [mem_singleton.1 hs, mem_singleton.1 ht]

/-- Replacements in stretches that follow each other. -/
theorem append (h : Compatible a b rs) (h' : Compatible c d ss) (hab : a ≤ b) (hbc : b ≤ c)
    (hcd : c ≤ d) : Compatible a d (rs ++ ss) := by
  refine ⟨fun r hr => ?_, fun r hr s hs => ?_⟩
  · rcases mem_append.1 hr with hr | hr
    · exact (h.inside r hr).mono (Nat.le_refl a) (Nat.le_trans hbc hcd)
    · exact (h'.inside r hr).mono (Nat.le_trans hab hbc) (Nat.le_refl d)
  · rcases mem_append.1 hr with hr | hr <;> rcases mem_append.1 hs with hs | hs
    · exact h.apart r hr s hs
    · exact Or.inr (CharRange.apart_of_inside (h.inside r hr) (h'.inside s hs) hbc)
    · exact Or.inr (CharRange.apart_of_inside (h.inside s hs) (h'.inside r hr) hbc).symm
    · exact h'.apart r hr s hs

theorem shift (h : Compatible a b rs) (n : Nat) :
    Compatible (a + n) (b + n) (rs.map fun r => (r.1.shift n, r.2)) := by
  refine ⟨fun r hr => ?_, fun r hr s hs => ?_⟩
  · obtain ⟨r', hr', rfl⟩ := mem_map.1 hr
    exact (h.inside r' hr').shift n
  · obtain ⟨r', hr', rfl⟩ := mem_map.1 hr
    obtain ⟨s', hs', rfl⟩ := mem_map.1 hs
    rcases h.apart r' hr' s' hs' with rfl | apart
    · exact Or.inl rfl
    · exact Or.inr (apart.shift n)

end Compatible

/-- A name that is not known has at most one replacement, at its place. -/
theorem compatible_ofUnknown {a b : Nat} {range : CharRange} (h : range.Inside a b) (limit : Nat)
    (code : Code) (text name : String) (names : List String) :
    Compatible a b (Issue.ofUnknown limit code text name names range).replaced := by
  unfold Issue.replaced Issue.ofUnknown
  dsimp only
  cases bestName (suggest name names limit) with
  | none => exact .nil a b
  | some best => exact .singleton h

end ModCheck
