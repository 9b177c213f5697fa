import ModCheck.Formula.Token

/-
  The tokens of a formula stand in its text, one after the other. A token's text is the longest
  number, name or sign in front of what is left (`leadingToken_leads`); its span is where that
  stands, and tokens whose spans follow each other are `Spaced`.
-/

namespace ModCheck.Formula

open List

variable {a b pos : Nat} {c : Char} {cs text : List Char} {ts : List Token}

theorem exists_of_map_eq_ok {ε α β : Type} {x : Except ε α} {f : α → β} {y : β}
    (h : x.map f = .ok y) : ∃ a, x = .ok a ∧ f a = y := by
  cases x with
  | error e => cases h
  | ok a => exact ⟨a, rfl, Except.ok.inj h⟩

/-! ## What stands in front -/

theorem prefix_append_of_drop {xs ys : List Char} (hx : xs <+: cs) (hy : ys <+: cs.drop xs.length) :
    xs ++ ys <+: cs := by
  obtain ⟨rest, rfl⟩ := hx
  rw [drop_left] at hy
  exact (prefix_append_right_inj xs).2 hy

theorem leadingDigits_leads (cs : List Char) : leadingDigits cs <+: cs :=
  takeWhile_prefix _

theorem leadingFraction_leads (cs : List Char) : leadingFraction cs <+: cs := by
  unfold leadingFraction
  split
  · next ds => exact (prefix_cons_inj '.').2 (leadingDigits_leads ds)
  · exact nil_prefix

theorem leadingExponent_leads (cs : List Char) : leadingExponent cs <+: cs := by
  fun_cases leadingExponent cs with
  | case1 => exact nil_prefix
  | case2 => exact nil_prefix
  | case3 mark cs _ sign digits _ =>
    have hsign : sign <+: cs := by
      unfold sign
      split
      · exact (prefix_cons_inj '+').2 nil_prefix
      · exact (prefix_cons_inj '-').2 nil_prefix
      · exact nil_prefix
    exact (prefix_cons_inj mark).2 (prefix_append_of_drop hsign (leadingDigits_leads _))
  | case4 => exact nil_prefix

theorem leadingNumber_leads (cs : List Char) : leadingNumber cs <+: cs :=
  prefix_append_of_drop
    (prefix_append_of_drop (leadingDigits_leads cs) (leadingFraction_leads _))
    (leadingExponent_leads _)

theorem leadingNumber_ne_nil (h : startsNumber c cs = true) : leadingNumber (c :: cs) ≠ [] := by
  unfold startsNumber at h
  unfold leadingNumber leadingDigits
  by_cases hc : c.isDigit = true
  · simp [hc]
  · obtain ⟨rfl, -⟩ : c = '.' ∧ _ := by simpa [hc] using h
    simp [leadingFraction]

/-- A token's text is not empty and stands in front. -/
theorem leadingToken_leads {kind : TokenKind} (h : leadingToken pos c cs = .ok (kind, text)) :
    text ≠ [] ∧ text <+: c :: cs := by
  unfold leadingToken at h
  split at h
  · obtain ⟨-, rfl⟩ := Prod.mk.inj (Except.ok.inj h)
    exact ⟨cons_ne_nil _ _, (prefix_cons_inj c).2 nil_prefix⟩
  · split at h
    · next hs =>
      dsimp only at h
      split at h
      · obtain ⟨-, rfl⟩ := Prod.mk.inj (Except.ok.inj h)
        exact ⟨leadingNumber_ne_nil hs, leadingNumber_leads _⟩
      · simp at h
    · split at h
      · obtain ⟨-, rfl⟩ := Prod.mk.inj (Except.ok.inj h)
        exact ⟨cons_ne_nil _ _, (prefix_cons_inj c).2 ( takeWhile_prefix _)⟩
      · simp at h

/-! ## Tokens in a text -/

/-- The characters of a range. -/
def textAt (text : List Char) (r : CharRange) : List Char :=
  (text.take r.stop).drop r.start

theorem textAt_of_drop {chars : List Char} (h : text.drop pos = cs) (hp : chars <+: cs) :
    textAt text ⟨pos, pos + chars.length⟩ = chars := by
  unfold textAt
  rw [drop_take, h, Nat.add_sub_cancel_left]
  exact (prefix_iff_eq_take.1 hp).symm

/-- Tokens that follow each other on the characters `a` up to `b`. -/
def Spaced : Nat → List Token → Nat → Prop
  | a, [], b => a ≤ b
  | a, t :: ts, b => a ≤ t.span.start ∧ t.span.start < t.span.stop ∧ Spaced t.span.stop ts b

theorem Spaced.le (h : Spaced a ts b) : a ≤ b := by
  induction ts generalizing a with
  | nil => exact h
  | cons t ts ih =>
    obtain ⟨h₁, h₂, rest⟩ := h
    have := ih rest
    omega

theorem Spaced.mono {c : Nat} (h : Spaced a ts b) (hc : c ≤ a) : Spaced c ts b := by
  cases ts with
  | nil => exact Nat.le_trans hc h
  | cons t ts => exact ⟨Nat.le_trans hc h.1, h.2⟩

theorem spaced_append {us : List Token} :
    Spaced a (ts ++ us) b ↔ ∃ m, Spaced a ts m ∧ Spaced m us b := by
  induction ts generalizing a with
  | nil =>
    constructor
    · intro h
      exact ⟨a, Nat.le_refl a, h⟩
    · rintro ⟨m, hm, h⟩
      exact h.mono hm
  | cons t ts ih =>
    simp only [cons_append, Spaced, ih]
    constructor
    · rintro ⟨h₁, h₂, m, h, h'⟩
      exact ⟨m, ⟨h₁, h₂, h⟩, h'⟩
    · rintro ⟨m, ⟨h₁, h₂, h⟩, h'⟩
      exact ⟨h₁, h₂, m, h, h'⟩

theorem Spaced.bounds (h : Spaced a ts b) :
    ∀ t ∈ ts, a ≤ t.span.start ∧ t.span.start < t.span.stop ∧ t.span.stop ≤ b := by
  induction ts generalizing a with
  | nil => simp
  | cons t ts ih =>
    obtain ⟨h₁, h₂, rest⟩ := h
    refine forall_mem_cons.2 ⟨⟨h₁, h₂, rest.le⟩, fun u hu => ?_⟩
    obtain ⟨h₃, h₄⟩ := ih rest u hu
    exact ⟨by omega, h₄⟩

theorem Spaced.pairwise (h : Spaced a ts b) :
    ts.Pairwise fun t u => t.span.stop ≤ u.span.start := by
  induction ts generalizing a with
  | nil => exact .nil
  | cons t ts ih =>
    obtain ⟨-, -, rest⟩ := h
    exact .cons (fun u hu => (rest.bounds u hu).1) (ih rest)

end ModCheck.Formula
