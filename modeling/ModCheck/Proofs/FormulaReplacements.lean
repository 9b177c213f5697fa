import ModCheck.Proofs.FormulaScanning
import ModCheck.Proofs.IssueOrigins
import ModCheck.Proofs.ReaderOutcome
import ModCheck.Proofs.Replacements

/-
  What a check of a formula offers to write instead. In a call it offers a colon for a delimiter,
  one name at most, and what it offers in the body (`replacements_checkOperator`). The parts of a
  call follow each other in the text, so the replacements of a formula can be made together
  (`compatible_check`).
-/

namespace ModCheck.Formula

open List

variable {a b : Nat} {call : Call} {inBody rs : List Replacement} {ts : List Token}
  {xs : List Argument}

/-! ## Where arguments stand -/

/-- Arguments that follow each other on the characters `a` up to `b`, each behind a delimiter. -/
def ArgumentsIn : Nat → List Argument → Nat → Prop
  | a, [], b => a ≤ b
  | a, x :: xs, b =>
    a ≤ x.delimiterOffset ∧ x.delimiterOffset < x.span.start ∧ x.span.start < x.span.stop ∧
      ArgumentsIn x.span.stop xs b

theorem ArgumentsIn.le (h : ArgumentsIn a xs b) : a ≤ b := by
  induction xs generalizing a with
  | nil => exact h
  | cons x xs ih =>
    obtain ⟨h₁, h₂, h₃, rest⟩ := h
    have := ih rest
    omega

theorem ArgumentWritten.spaced {x : Argument} (h : ArgumentWritten x ts)
    {a b : Nat} (spaced : Spaced a ts b) :
    a ≤ x.delimiterOffset ∧ x.delimiterOffset < x.span.start ∧ x.span.start < x.span.stop ∧
      x.span.stop ≤ b := by
  cases h with
  | number sign kind =>
    obtain ⟨h₁, h₂, h₃, h₄, h₅⟩ := spaced
    dsimp only
    simp only [Spaced] at h₅
    omega
  | name sign kind =>
    obtain ⟨h₁, h₂, h₃, h₄, h₅⟩ := spaced
    dsimp only
    simp only [Spaced] at h₅
    omega
  | negative sign minus kind =>
    obtain ⟨h₁, h₂, h₃, h₄, h₅, h₆, h₇⟩ := spaced
    dsimp only [CharRange.through]
    simp only [Spaced] at h₇
    omega

theorem ArgumentsWritten.spaced (h : ArgumentsWritten xs ts)
    {a b : Nat} (spaced : Spaced a ts b) : ArgumentsIn a xs b := by
  induction h generalizing a with
  | nil => exact spaced
  | cons first rest ih =>
    obtain ⟨m, hm, hrest⟩ := spaced_append.1 spaced
    obtain ⟨h₁, h₂, h₃, h₄⟩ := first.spaced hm
    exact ⟨h₁, h₂, h₃, ih (hrest.mono h₄)⟩

theorem ChainWritten.spaced {nameEnd chainEnd : Nat} (h : ChainWritten nameEnd xs chainEnd ts)
    {a b : Nat} (spaced : Spaced a ts b) : ArgumentsIn a xs b := by
  cases h with
  | absent => exact spaced
  | bare colon => exact spaced.le
  | full colon written => exact written.spaced spaced

/-! ## What a call may offer -/

/-- A colon for each delimiter. -/
def delimiterReplacements (xs : List Argument) : List Replacement :=
  xs.map fun x => (⟨x.delimiterOffset, x.delimiterOffset + 1⟩, ":")

theorem inside_delimiter {x : Argument} (h₁ : a ≤ x.delimiterOffset)
    (h₂ : x.delimiterOffset < x.span.start) :
    CharRange.Inside ⟨x.delimiterOffset, x.delimiterOffset + 1⟩ a x.span.start := by
  constructor <;> dsimp only <;> omega

theorem compatible_delimiters (h : ArgumentsIn a xs b) :
    Compatible a b (delimiterReplacements xs) := by
  induction xs generalizing a with
  | nil => exact .nil a b
  | cons x xs ih =>
    obtain ⟨h₁, h₂, h₃, rest⟩ := h
    have hstart : a ≤ x.span.start := by omega
    exact (Compatible.singleton (inside_delimiter h₁ h₂)).append (ih rest) hstart
      (Nat.le_of_lt h₃) rest.le

/-- Colons for delimiters, and a name for one of the arguments. -/
theorem compatible_name_delimiters (h : ArgumentsIn a xs b) {r : Replacement}
    (hr : r.1 ∈ xs.map (·.span)) : Compatible a b (r :: delimiterReplacements xs) := by
  induction xs generalizing a with
  | nil => simp at hr
  | cons x xs ih =>
    obtain ⟨h₁, h₂, h₃, rest⟩ := h
    have hstart : a ≤ x.span.start := by omega
    have hstop := Nat.le_of_lt h₃
    have colon := Compatible.singleton (r := (_, ":")) (inside_delimiter h₁ h₂)
    rcases mem_cons.1 hr with hr | hr
    · -- the name stands between this delimiter and the next
      have here : Compatible x.span.start x.span.stop [r] :=
        .singleton (hr ▸ CharRange.inside_self h₃)
      have tail := here.append (compatible_delimiters rest) hstop (Nat.le_refl _) rest.le
      refine (colon.append tail hstart (Nat.le_refl _) (Nat.le_trans hstop rest.le)).subset ?_
      intro q hq
      simp only [delimiterReplacements, map_cons, cons_append, nil_append, mem_cons] at hq ⊢
      tauto
    · refine (colon.append (ih rest hr) hstart hstop rest.le).subset ?_
      intro q hq
      simp only [delimiterReplacements, map_cons, cons_append, nil_append, mem_cons] at hq ⊢
      tauto

/-! ## What a check offers -/

theorem replacements_styleIssues (call : Call) (hasBody : Bool) (op : Operator) :
    replacements (styleIssues call hasBody op) = [] := by
  unfold styleIssues
  split <;> rfl

theorem replacements_numericIssues (s : Checker) (ctx : CallSite) (spec : ArgumentSpec)
    (x : Argument) : replacements (numericIssues s ctx spec x) = [] := by
  unfold numericIssues
  split <;> rfl

theorem replacements_usageIssues (s : Checker) (ctx : CallSite) (op : Operator)
    (plain : List Argument) (hasFormula : Bool) :
    replacements (usageIssues s ctx op plain hasFormula) = [] := by
  unfold usageIssues
  split
  · split
    · rfl
    · rw [replacements_append, replacements_flatMap, append_eq_nil_iff]
      constructor
      · exact flatMap_eq_nil_iff.2 fun q _ => replacements_numericIssues s ctx q.2 q.1
      · split <;> rfl
  · rfl

theorem replacements_delimiterIssues (call : Call) (op : Operator) :
    replacements (delimiterIssues call op) ⊆ delimiterReplacements call.arguments := by
  intro r hr
  obtain ⟨i, hi, hrange, htext⟩ := mem_replacements.1 hr
  obtain ⟨x, hx, h⟩ := mem_filterMap.1 hi
  split at h
  · simp at h
  · obtain rfl := Option.some.inj h
    refine mem_map.2 ⟨x, hx, ?_⟩
    exact Prod.ext hrange (Option.some.inj htext)

theorem replacements_bodyArgumentIssues (ctx : CallSite) (b : Body) :
    replacements (bodyArgumentIssues ctx b) ⊆ replacements b.issues := by
  unfold bodyArgumentIssues
  split
  · exact nil_subset _
  · exact List.Subset.refl _

/-- Colons for delimiters, at most one name for the call's name or an argument, and what is offered
in the body. -/
def Offers (call : Call) (inBody rs : List Replacement) : Prop :=
  ∃ name : Option Replacement,
    (∀ r, name = some r → r.1 ∈ call.nameSpan :: call.arguments.map (·.span)) ∧
    rs ⊆ name.toList ++ delimiterReplacements call.arguments ++ inBody

theorem offers_body (h : rs ⊆ delimiterReplacements call.arguments ++ inBody) :
    Offers call inBody rs :=
  ⟨none, by simp, by simpa using h⟩

/-- An issue at the name of a call or at an argument. -/
theorem offers_name {colons : List Replacement} {i : Issue}
    (hi : i.range ∈ call.nameSpan :: call.arguments.map (·.span))
    (hc : colons ⊆ delimiterReplacements call.arguments) :
    Offers call inBody (colons ++ (i.replaced ++ inBody)) := by
  obtain ⟨name, e, range⟩ := exists_replaced i
  refine ⟨name, fun r hr => by rwa [range r hr], ?_⟩
  intro r hr
  rw [e] at hr
  simp only [mem_append] at hr ⊢
  rcases hr with hr | hr | hr
  · exact Or.inl (Or.inr (hc hr))
  · exact Or.inl (Or.inl hr)
  · exact Or.inr hr

/-- What the call inside a chain offers. -/
theorem Offers.surplus {head : Argument} {rest : List Argument} {span : CharRange}
    (h : Offers ⟨head.text, head.span, rest, span⟩ [] rs) (hx : head :: rest <:+ call.arguments)
    {colons : List Replacement} (hc : colons ⊆ delimiterReplacements call.arguments)
    (inBody : List Replacement) : Offers call inBody (colons ++ rs) := by
  obtain ⟨name, range, sub⟩ := h
  refine ⟨name, fun r hr => mem_cons_of_mem _ ?_, ?_⟩
  · exact (hx.map (·.span)).subset (range r hr)
  · intro r hr
    simp only [mem_append] at hr ⊢
    rcases hr with hr | hr
    · exact Or.inl (Or.inr (hc hr))
    · have := sub hr
      simp only [append_nil, mem_append] at this
      rcases this with hr | hr
      · exact Or.inl (Or.inl hr)
      · exact Or.inl (Or.inr ((((suffix_cons head rest).trans hx).map _).subset hr))

theorem offers_checkOperator (s : Checker) (call : Call) (body : Option Body) :
    Offers call (replacements (bodyIssues body)) (replacements (checkOperator s call body)) := by
  fun_induction checkOperator s call body with
  | case1 call body hf =>
    exact offers_name mem_cons_self (nil_subset _)
  | case2 call body op hf ih =>
    have colons := replacements_delimiterIssues call op
    rw [replacements_append, replacements_append, replacements_styleIssues]
    split
    · exact offers_body (append_subset.2 ⟨subset_append_of_subset_left _ colons,
        subset_append_right _ _⟩)
    · exact offers_body (append_subset.2 ⟨subset_append_of_subset_left _ colons,
        subset_append_right _ _⟩)
    · next owner first h =>
      exact offers_name
        (mem_cons_of_mem _ (mem_map_of_mem (addressee_unknown hf h).1)) colons
    · next target label xs h =>
      split
      · next n hn =>
        -- arguments left over may be a call of their own: only there the induction is needed
        rw [replacements_append, replacements_usageIssues]
        split
        · exact offers_body (by simpa using subset_append_of_subset_left _ colons)
        · next issue h' =>
          obtain ⟨head, extra, rest, -, rfl⟩ := surplus_eq_misplaced h'
          rw [replacements_cons, replaced_of_none rfl]
          exact offers_body (by simpa using subset_append_of_subset_left _ colons)
        · next inner h' =>
          obtain ⟨head, rest, e, -, rfl⟩ := surplus_eq_call h'
          have leftOver := (drop_suffix n xs).trans (addressee_suffix h)
          rw [e] at leftOver
          exact (ih target label xs h n _ h').surplus leftOver colons _
      · split
        · rw [replacements_usageIssues, append_nil]
          exact offers_body (subset_append_of_subset_left _ colons)
        · next b hn =>
          refine offers_body (append_subset.2
            ⟨subset_append_of_subset_left _ colons, subset_append_of_subset_right _ ?_⟩)
          split
          · rw [replacements_append, replacements_usageIssues]
            exact List.Subset.refl _
          · rw [replacements_append, replacements_usageIssues, append_nil]
            exact replacements_bodyArgumentIssues _ b

/-! ## Formulas -/

/-- The replacements of a call whose name and arguments stand before the body. -/
theorem Offers.compatible (h : Offers call inBody rs) {c d : Nat}
    (hname : call.nameSpan.start < call.nameSpan.stop)
    (arguments : ArgumentsIn call.nameSpan.stop call.arguments b) (hbc : b ≤ c) (hcd : c ≤ d)
    (body : Compatible c d inBody) : Compatible call.nameSpan.start d rs := by
  obtain ⟨name, range, sub⟩ := h
  have hle := arguments.le
  have chain : Compatible call.nameSpan.start b
      (name.toList ++ delimiterReplacements call.arguments) := by
    cases name with
    | none => exact (compatible_delimiters arguments).mono (Nat.le_of_lt hname) (Nat.le_refl b)
    | some r =>
      rcases mem_cons.1 (range r rfl) with hr | hr
      · have here : Compatible call.nameSpan.start call.nameSpan.stop [r] :=
          .singleton (by rw [hr]; exact CharRange.inside_self hname)
        exact here.append (compatible_delimiters arguments) (Nat.le_of_lt hname) (Nat.le_refl _) hle
      · exact (compatible_name_delimiters arguments hr).mono (Nat.le_of_lt hname) (Nat.le_refl b)
  have hstart : call.nameSpan.start ≤ b := by omega
  exact (chain.append body hstart hbc hcd).subset sub

/-- The replacements of a formula can be made together and lie on its tokens. -/
theorem compatible_check (s : Checker) {level : Level} {f : Formula} (h : Written level f ts)
    (spaced : Spaced a ts b) : Compatible a b (replacements (f.check s)) := by
  induction h generalizing a b with
  | literal kind => exact .nil a b
  | name kind => exact .nil a b
  | negation minus operand ih =>
    obtain ⟨h₁, h₂, rest⟩ := spaced
    exact (ih rest).mono (by omega) (Nat.le_refl b)
  | @chain name xs chainEnd ts kind chain called =>
    obtain ⟨h₁, h₂, rest⟩ := spaced
    have offers := offers_checkOperator s
      ⟨name.text, name.span, xs, ⟨name.span.start, chainEnd⟩⟩ none
    exact (offers.compatible h₂ (chain.spaced rest) (Nat.le_refl b) (Nat.le_refl b)
      (.nil b b)).mono h₁ (Nat.le_refl b)
  | @applied name opening closing xs chainEnd body ts us kind chain noBare opens inner closes ih =>
    obtain ⟨h₁, h₂, rest⟩ := spaced
    obtain ⟨m, hchain, h₃, h₄, rest⟩ := spaced_append.1 rest
    obtain ⟨n, hbody, h₅, h₆, h₇⟩ := spaced_append.1 rest
    have offers := offers_checkOperator s
      ⟨name.text, name.span, xs, ⟨name.span.start, closing.span.stop⟩⟩
      (some ⟨body, ⟨opening.span.start, closing.span.stop⟩, body.check s⟩)
    exact (offers.compatible h₂ (chain.spaced hchain) (by omega) hbody.le (ih hbody)).mono h₁
      (by simp only [Spaced] at h₇; omega)
  | ofBelow upper part ih => exact ih spaced
  | @joined level left right ts us sign op first operator second ih₁ ih₂ =>
    obtain ⟨m, hleft, h₁, h₂, hright⟩ := spaced_append.1 spaced
    have hm := hleft.le
    have both := (ih₁ hleft).append (ih₂ hright) hm (by omega) hright.le
    rw [← replacements_append] at both
    exact both

/-- The replacements in a formula's text can be made together. -/
theorem compatible_parse {text : String} {f : Formula} (h : parse text = .ok f) (s : Checker) :
    Compatible 0 text.length (replacements (f.check s)) := by
  obtain ⟨ts, scanned, written, -⟩ := parse_written h
  exact compatible_check s written (spaced_scan scanned)

end ModCheck.Formula
