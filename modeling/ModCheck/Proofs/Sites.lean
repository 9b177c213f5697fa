import Mathlib.Data.List.Pairwise
import ModCheck.Proofs.Layout
import ModCheck.Proofs.TokenMap

/-
  What is kept of a file stands apart in it. The tokens of the blocks have texts of their own and
  come one after the other (`kept_apart`), so two statements never end in the same place
  (`statement_eq_of_stop_eq`).
-/

namespace ModCheck

open List

variable {t : Token}

/-! ## Kept tokens -/

/-- Of two members of a list one comes first. -/
theorem related_of_pairwise {α : Type} {R : α → α → Prop} {l : List α} (h : l.Pairwise R) {a b : α}
    (ha : a ∈ l) (hb : b ∈ l) (hne : a ≠ b) : R a b ∨ R b a := by
  induction h with
  | nil => simp at ha
  | cons first _ ih =>
    rcases mem_cons.1 ha with rfl | ha'
    · rcases mem_cons.1 hb with rfl | hb'
      · exact absurd rfl hne
      · exact Or.inl (first b hb')
    · rcases mem_cons.1 hb with rfl | hb'
      · exact Or.inr (first a ha')
      · exact ih ha' hb'

/-- The tokens of a block are no line breaks, no comments and not the end of the file. -/
theorem toBlock_solid {s : Section} (ho : s.opening.kind = .leftBracket) (inner : Inner s.tokens)
    (ht : t ∈ s.toBlock.tokens) : t.kind.isSolid = true := by
  rcases mem_cons.1 ht with rfl | ht
  · rw [show s.toBlock.opening = s.opening from rfl, ho]
    rfl
  rcases mem_append.1 ht with ht | ht
  · cases h : s.toBlock.heading with
    | unnamed => simp [h, Heading.tokens] at ht
    | named name closed =>
      rw [h, Heading.tokens, mem_singleton] at ht
      rw [ht, (readHeading_named h).1]
      rfl
  · obtain ⟨st, hst, ht⟩ := mem_flatMap.1 ht
    have hs := readStatements_tokens hst ht
    have hm := (readStatements_sublist _).subset (mem_flatMap_of_mem hst ht)
    have he := (inner t ((readHeading_suffix s.tokens).subset hm)).2
    exact TokenKind.isSolid_iff.2 ⟨fun e => hs (Or.inl e), fun e => hs (Or.inr (Or.inl e)), he⟩

section

variable (source : String)

theorem kept_solid (ht : t ∈ (blocksOf (Token.scan source)).flatMap Block.tokens) :
    t.kind.isSolid = true ∧ t.Sane := by
  refine ⟨?_, (laid_scan source).sane ((blocks_sublist _).subset ht)⟩
  obtain ⟨b, hb, ht⟩ := mem_flatMap.1 ht
  obtain ⟨s, hs, rfl⟩ := mem_map.1 hb
  obtain ⟨ho, inner⟩ := (inner_splitSections (Token.scan source)).2 s hs
  exact toBlock_solid ho inner ht

theorem kept_start_lt_stop (ht : t ∈ (blocksOf (Token.scan source)).flatMap Block.tokens) :
    t.start < t.stop := by
  obtain ⟨solid, sane⟩ := kept_solid source ht
  exact sane.start_lt_stop solid

/-- Kept tokens come one after the other. -/
theorem kept_apart : ((blocksOf (Token.scan source)).flatMap Block.tokens).Pairwise
    fun a b => a.stop ≤ b.start := by
  refine ((laid_scan source).pairwise.sublist (blocks_sublist _)).imp_of_mem ?_
  intro a b ha _ h
  exact h (kept_solid source ha).1

/-! ## Statements -/

/-- The statements of a file, in order. -/
def statementsOf (ts : List Token) : List Statement :=
  (blocksOf ts).flatMap Block.statements

theorem statements_sublist (ts : List Token) :
    ((statementsOf ts).flatMap Statement.tokens).Sublist ((blocksOf ts).flatMap Block.tokens) := by
  rw [statementsOf, flatMap_assoc]
  apply List.Sublist.flatMap_right
  intro b _
  exact (sublist_append_right _ _).trans (sublist_cons_self _ _)

theorem mem_kept {st : Statement} (hst : st ∈ statementsOf (Token.scan source))
    (ht : t ∈ st.tokens) : t ∈ (blocksOf (Token.scan source)).flatMap Block.tokens :=
  (statements_sublist _).subset (mem_flatMap_of_mem hst ht)

theorem tokens_apart {st : Statement} (hst : st ∈ statementsOf (Token.scan source)) :
    st.tokens.Pairwise fun a b => a.stop ≤ b.start :=
  (pairwise_flatMap.1 ((kept_apart source).sublist (statements_sublist _))).1 st hst

theorem statements_apart : (statementsOf (Token.scan source)).Pairwise
    fun st st' => ∀ a ∈ st.tokens, ∀ b ∈ st'.tokens, a.stop ≤ b.start :=
  (pairwise_flatMap.1 ((kept_apart source).sublist (statements_sublist _))).2

end

/-- A value ends with one of the statement's tokens. -/
theorem valueSpan_stop (equals : Token) (value : List Token) :
    ∃ t ∈ equals :: value, t.stop = (valueSpan equals value).stop := by
  cases h : value.getLast? with
  | none => exact ⟨equals, mem_cons_self, by simp [valueSpan, h, Span.point, Token.stop]⟩
  | some last =>
    obtain ⟨first, hf⟩ : ∃ first, value.head? = some first := by
      cases value with
      | nil => simp at h
      | cons v vs => exact ⟨v, rfl⟩
    exact ⟨last, mem_cons_of_mem _ (mem_of_getLast? h),
      by simp [valueSpan, h, hf, Token.stop]⟩

theorem property?_stop {st : Statement} {k : String} {p : Property}
    (h : st.property? = some (k, p)) : ∃ t ∈ st.tokens, t.stop = p.valueSpan.stop := by
  cases st with
  | assignment key equals value ending due =>
    obtain ⟨-, rfl⟩ := Prod.mk.inj (Option.some.inj h)
    obtain ⟨t, ht, e⟩ := valueSpan_stop equals value
    exact ⟨t, mem_cons_of_mem _ ht, e⟩
  | bareName key => simp [Statement.property?] at h
  | stray token => simp [Statement.property?] at h

/-- Two statements whose values end in the same place are one. -/
theorem statement_eq_of_stop_eq {source : String} {st st' : Statement}
    (hst : st ∈ statementsOf (Token.scan source)) (hst' : st' ∈ statementsOf (Token.scan source))
    {k k' : String} {p p' : Property} (h : st.property? = some (k, p))
    (h' : st'.property? = some (k', p')) (e : p.valueSpan.stop = p'.valueSpan.stop) : st = st' := by
  obtain ⟨t, ht, et⟩ := property?_stop h
  obtain ⟨t', ht', et'⟩ := property?_stop h'
  have hlt := kept_start_lt_stop source (mem_kept source hst ht)
  have hlt' := kept_start_lt_stop source (mem_kept source hst' ht')
  have hstop : t.stop = t'.stop := et.trans (e.trans et'.symm)
  by_contra hne
  rcases related_of_pairwise (statements_apart source) hst hst' hne with h | h
  · have hle : t'.stop ≤ t'.start := hstop ▸ h t ht t' ht'
    exact absurd hlt' hle.not_gt
  · have hle : t.stop ≤ t.start := hstop ▸ h t' ht' t ht
    exact absurd hlt hle.not_gt

end ModCheck
