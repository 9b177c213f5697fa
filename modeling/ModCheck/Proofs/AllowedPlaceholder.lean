import ModCheck.Proofs.CallUsages

/-
  Where the placeholder may stand for a number, only the issues about it are missing. Two checks of
  one formula that know the same operators take the same way through every call, its sub-operators,
  the calls inside its chain and its body; they part in what they say about an unknown name and
  about a numeric argument. `Effect` says what has to be shown about these, and `Effect.rel_check`
  carries it to all issues of a formula. For the placeholder (`Allowing`) the second list of issues
  is the first without those about the placeholder, and each of these comes from the check of a
  numeric argument that is the placeholder. Main statement: `check_allowing_placeholder`.
-/

namespace ModCheck

open List

/-! ## Lists of two runs -/

/-- A relation between what two runs find that is shown part by part: it holds of nothing, of lists
put together, and of a single finding that is in both, if this is `steady`. -/
structure PartByPart {α : Type} (steady : α → Prop) (R : List α → List α → Prop) : Prop where
  nil : R [] []
  append : ∀ {xs ys xs' ys'}, R xs ys → R xs' ys' → R (xs ++ xs') (ys ++ ys')
  single : ∀ a, steady a → R [a] [a]

namespace PartByPart

variable {α β : Type} {steady : α → Prop} {R : List α → List α → Prop} (P : PartByPart steady R)

include P

theorem rel_self {found : List α} (h : ∀ a ∈ found, steady a) : R found found := by
  induction found with
  | nil => exact P.nil
  | cons a found ih =>
    obtain ⟨first, rest⟩ := forall_mem_cons.1 h
    exact P.append (P.single a first) (ih rest)

theorem rel_flatMap {f g : β → List α} {bs : List β} (h : ∀ b ∈ bs, R (f b) (g b)) :
    R (bs.flatMap f) (bs.flatMap g) := by
  induction bs with
  | nil => exact P.nil
  | cons b bs ih =>
    obtain ⟨first, rest⟩ := forall_mem_cons.1 h
    exact P.append first (ih rest)

end PartByPart

/-! ## The issues about the placeholder -/

/-- Whether an issue is about the placeholder, going by what it says. -/
def Issue.aboutPlaceholder (i : Issue) : Bool :=
  i.code == .argumentType && "Placeholder 'x' is not allowed".toList.isPrefixOf i.text.toList

namespace Formula

theorem aboutPlaceholder_of_code {i : Issue} (h : i.code ≠ .argumentType) :
    i.aboutPlaceholder = false := by
  simp [Issue.aboutPlaceholder, h]

theorem aboutPlaceholder_styleIssues (call : Call) (hasBody : Bool) (op : Operator) :
    ∀ i ∈ styleIssues call hasBody op, i.aboutPlaceholder = false := by
  unfold styleIssues
  cases op.functionStyle <;> cases hasBody <;>
    simp [Issue.aboutPlaceholder, operatorIssue]

theorem aboutPlaceholder_delimiterIssues (call : Call) (op : Operator) :
    ∀ i ∈ delimiterIssues call op, i.aboutPlaceholder = false := by
  intro i hi
  obtain ⟨x, -, e⟩ := mem_filterMap.1 hi
  obtain ⟨-, e⟩ := Option.ite_none_left_eq_some.1 e
  obtain rfl := Option.some.inj e
  exact aboutPlaceholder_of_code (by simp)

theorem aboutPlaceholder_misplaced {operators : NameTable Operator} {rest : List Argument}
    {issue : Issue} (h : surplus operators rest = .misplaced issue) :
    issue.aboutPlaceholder = false := by
  obtain ⟨head, extra, rest, -, rfl⟩ := surplus_eq_misplaced h
  simp [Issue.aboutPlaceholder, List.isPrefixOf]

/-! ## Two checks of one formula -/

/-- All arguments of the calls in a formula. A body counts as the argument that it is for an
operator without formula arguments. -/
def allArguments : Formula → List Argument
  | .literal _ _ => []
  | .variable _ _ => []
  | .negation operand _ => operand.allArguments
  | .binary _ left right _ => left.allArguments ++ right.allArguments
  | .chain call => call.arguments
  | .applied call body span =>
    call.arguments ++ bodyArgument ⟨body, span, []⟩ :: body.allArguments

/-- A relation between what two checks find, shown for each kind of issue that differs. Both know
the same operators, and the arguments they look at are among `xs`. -/
structure Effect (s s' : Checker) (xs : List Argument) (R : List Issue → List Issue → Prop) :
    Prop extends PartByPart (·.aboutPlaceholder = false) R where
  operators : s.operators = s'.operators
  unknown : ∀ code text name names range operator, code ≠ .argumentType →
    R [{ Issue.ofUnknown s.limit code text name names range with operator }]
      [{ Issue.ofUnknown s'.limit code text name names range with operator }]
  numeric : ∀ ctx spec, ∀ x ∈ xs, R (numericIssues s ctx spec x) (numericIssues s' ctx spec x)

/-- The same body with the issues of two checks; as an argument it is among `xs`. -/
structure Body.Both (xs : List Argument) (R : List Issue → List Issue → Prop) (b b' : Body) :
    Prop where
  formula : b.formula = b'.formula
  span : b.span = b'.span
  argument : bodyArgument b ∈ xs
  issues : R b.issues b'.issues

namespace Effect

variable {s s' : Checker} {xs : List Argument} {R : List Issue → List Issue → Prop}
  (E : Effect s s' xs R)

include E

theorem rel_usageIssues (ctx : CallSite) (op : Operator) {plain : List Argument}
    (hplain : plain ⊆ xs) (hasFormula : Bool) :
    R (usageIssues s ctx op plain hasFormula) (usageIssues s' ctx op plain hasFormula) := by
  unfold usageIssues
  split
  · split
    · exact E.nil
    · refine E.append (E.rel_flatMap fun p hp => ?_) (E.rel_self ?_)
      · exact E.numeric ctx p.2 p.1 (hplain (of_mem_zip hp).1)
      · split
        · simpa using aboutPlaceholder_of_code (by simp [operatorIssue])
        · simp
  · exact E.single _ (aboutPlaceholder_of_code (by simp [operatorIssue]))

theorem rel_bodyIssues {body body' : Option Body} (h : Option.Rel (Body.Both xs R) body body') :
    R (bodyIssues body) (bodyIssues body') := by
  cases h with
  | none => exact E.nil
  | some h => exact h.issues

theorem rel_checkOperator (call : Call) (hcall : call.arguments ⊆ xs) {body body' : Option Body}
    (hbody : Option.Rel (Body.Both xs R) body body') :
    R (checkOperator s call body) (checkOperator s' call body') := by
  obtain ⟨operators, limit, allowX⟩ := s
  obtain ⟨operators', limit', allowX'⟩ := s'
  obtain rfl : operators = operators' := E.operators
  -- both take the same branch everywhere: which call is read where does not hang on the issues
  fun_induction checkOperator ⟨operators, limit, allowX⟩ call body generalizing body' with
  | case1 call body hf =>
    rw [checkOperator]
    simp only [hf]
    exact E.append (E.unknown .unknownOperator _ _ _ _ none (by simp)) (E.rel_bodyIssues hbody)
  | case2 call body op hf ih =>
    have inBody := E.rel_bodyIssues hbody
    have form : body.isSome = body'.isSome := by cases hbody <;> rfl
    rw [checkOperator]
    simp only [hf, form]
    refine E.append ?_ ?_
    · exact E.append (E.rel_self (aboutPlaceholder_styleIssues _ _ _))
        (E.rel_self (aboutPlaceholder_delimiterIssues _ _))
    split
    · exact inBody
    · exact E.append (E.single _ (aboutPlaceholder_of_code (by simp [operatorIssue]))) inBody
    · exact E.append (E.unknown .unknownSubOperator _ _ _ _ (some op.name) (by simp)) inBody
    · next target label rest he =>
      have hrest : rest ⊆ xs := List.Subset.trans (addressee_suffix he).subset hcall
      have length : chainLength? target rest body = chainLength? target rest body' := by
        cases hbody <;> rfl
      simp only [length]
      split
      · next n hn =>
        have htake : rest.take n ⊆ xs := List.Subset.trans (take_subset n rest) hrest
        have hdrop : rest.drop n ⊆ xs := List.Subset.trans (drop_subset n rest) hrest
        refine E.append (E.rel_usageIssues _ _ htake _) ?_
        split
        · exact E.nil
        · next issue he' => exact E.single _ (aboutPlaceholder_misplaced he')
        · next inner he' =>
          have hinner : inner.arguments ⊆ xs :=
            List.Subset.trans (surplus_suffix he').subset hdrop
          exact ih target label rest he n inner he' hinner .none
      · cases hbody with
        | none => exact E.rel_usageIssues _ _ hrest _
        | @some b b' h =>
          have argument : bodyArgument b = bodyArgument b' := by
            unfold bodyArgument
            rw [h.formula, h.span]
          dsimp only
          split
          · exact E.append (E.rel_usageIssues _ _ hrest _) h.issues
          · have all : rest ++ [bodyArgument b] ⊆ xs :=
              append_subset.2 ⟨hrest, cons_subset.2 ⟨h.argument, nil_subset _⟩⟩
            rw [← argument]
            refine E.append ?_ (E.rel_usageIssues _ _ all _)
            unfold bodyArgumentIssues
            rw [h.formula, h.span]
            split
            · exact E.nil
            · exact E.append (E.single _ (by
                simp [Issue.aboutPlaceholder, operatorIssue, List.isPrefixOf])) h.issues

/-- What holds of the issues of each kind holds of all issues of a formula. -/
theorem rel_check (f : Formula) (hf : f.allArguments ⊆ xs) : R (f.check s) (f.check s') := by
  induction f with
  | literal value span => exact E.nil
  | «variable» name span => exact E.nil
  | negation operand span ih => exact ih hf
  | binary op left right span ihl ihr =>
    obtain ⟨hleft, hright⟩ := append_subset.1 hf
    exact E.append (ihl hleft) (ihr hright)
  | chain call => exact E.rel_checkOperator call hf .none
  | applied call body span ih =>
    obtain ⟨hcall, hbody⟩ := append_subset.1 hf
    obtain ⟨argument, inner⟩ := cons_subset.1 hbody
    exact E.rel_checkOperator call hcall (.some ⟨rfl, rfl, argument, ih inner⟩)

end Effect

/-! ## The placeholder -/

/-- Issues where the placeholder is not allowed, and those where it is: the issues about the
placeholder are missing, all of which come from numeric checks of an argument among `xs`. -/
structure Allowing (s : Checker) (xs : List Argument) (issues allowed : List Issue) : Prop where
  without : allowed = issues.filter (!·.aboutPlaceholder)
  raised : ∀ i ∈ issues, i.aboutPlaceholder = true →
    ∃ ctx spec, ∃ x ∈ xs, x.text = placeholder ∧ i ∈ numericIssues s ctx spec x

theorem aboutPlaceholder_numericIssues {s : Checker} {ctx : CallSite} {spec : ArgumentSpec}
    {x : Argument} {i : Issue} (hi : i ∈ numericIssues s ctx spec x) :
    i.aboutPlaceholder = true ↔ x.text = placeholder := by
  unfold numericIssues at hi
  split at hi
  · simp at hi
  · obtain rfl := mem_singleton.1 hi
    by_cases h : x.text = placeholder <;>
      simp [Issue.aboutPlaceholder, operatorIssue, h]

section

variable {operators : NameTable Operator} {limit : Nat} {xs : List Argument}

/-- An issue about anything else is there in both checks. -/
theorem allowing_same {s : Checker} {i : Issue} (h : i.aboutPlaceholder = false) :
    Allowing s xs [i] [i] where
  without := by simp [h]
  raised := forall_mem_singleton.2 fun about => by simp [h] at about

/-- The one check that reads whether the placeholder is allowed. -/
theorem allowing_numericIssues (ctx : CallSite) (spec : ArgumentSpec) {x : Argument} (hx : x ∈ xs) :
    Allowing ⟨operators, limit, false⟩ xs (numericIssues ⟨operators, limit, false⟩ ctx spec x)
      (numericIssues ⟨operators, limit, true⟩ ctx spec x) where
  without := by
    by_cases h : x.text = placeholder
    · have none : numericIssues ⟨operators, limit, true⟩ ctx spec x = [] := by
        simp [numericIssues, h]
      rw [none, eq_comm, filter_eq_nil_iff]
      intro i hi
      simp [(aboutPlaceholder_numericIssues hi).2 h]
    · have same : numericIssues ⟨operators, limit, true⟩ ctx spec x =
          numericIssues ⟨operators, limit, false⟩ ctx spec x := by
        simp [numericIssues, h]
      rw [same, eq_comm, filter_eq_self]
      intro i hi
      simpa using mt (aboutPlaceholder_numericIssues hi).1 h
  raised i hi about := ⟨ctx, spec, x, hx, (aboutPlaceholder_numericIssues hi).1 about, hi⟩

theorem effect_allowing : Effect ⟨operators, limit, false⟩ ⟨operators, limit, true⟩ xs
    (Allowing ⟨operators, limit, false⟩ xs) where
  nil := ⟨rfl, by simp⟩
  append h h' := ⟨by rw [h.without, h'.without, filter_append],
    forall_mem_append.2 ⟨h.raised, h'.raised⟩⟩
  single _ := allowing_same
  operators := rfl
  unknown _ _ _ _ _ _ hcode := allowing_same (aboutPlaceholder_of_code hcode)
  numeric ctx spec _ := allowing_numericIssues ctx spec

end

theorem allowing_check (operators : NameTable Operator) (limit : Nat) (f : Formula) :
    Allowing ⟨operators, limit, false⟩ f.allArguments (f.check ⟨operators, limit, false⟩)
      (f.check ⟨operators, limit, true⟩) :=
  effect_allowing.rel_check f (List.Subset.refl _)

/-- Allowing the placeholder takes the issues about it away and changes nothing else. These are the
issues that a numeric check raises for an argument whose text is the placeholder. -/
theorem check_allowing_placeholder (operators : NameTable Operator) (limit : Nat) (f : Formula) :
    f.check ⟨operators, limit, true⟩ =
      (f.check ⟨operators, limit, false⟩).filter (!·.aboutPlaceholder) ∧
    ∀ i ∈ f.check ⟨operators, limit, false⟩, i.aboutPlaceholder = true ↔
      ∃ ctx spec, ∃ x ∈ f.allArguments, x.text = "x" ∧
        i ∈ numericIssues ⟨operators, limit, false⟩ ctx spec x := by
  have allowing := allowing_check operators limit f
  refine ⟨allowing.without, fun i hi => ⟨allowing.raised i hi, ?_⟩⟩
  rintro ⟨ctx, spec, x, -, text, raised⟩
  exact (aboutPlaceholder_numericIssues raised).2 text

/-- The placeholder and another name, where numbers are asked for. -/
theorem check_allowing_placeholder_beside_word :
    let operators := (checkerF false [[⟨"n", .numeric⟩, ⟨"m", .numeric⟩]]).operators
    let f : Formula := .chain ⟨"f", ⟨0, 1⟩,
      [⟨"x", false, ⟨2, 3⟩, ':', 1⟩, ⟨"y", false, ⟨4, 5⟩, ':', 3⟩], ⟨0, 5⟩⟩
    (f.check ⟨operators, 3, false⟩).map (·.text) =
      ["Placeholder 'x' is not allowed for argument 'n' of 'f' here",
        "Argument 'm' of 'f' must be a number, got 'y'"] ∧
    (f.check ⟨operators, 3, true⟩).map (·.text) =
      ["Argument 'm' of 'f' must be a number, got 'y'"] := by
  intro operators f
  have checked : f.check ⟨operators, 3, false⟩ =
      [operatorIssue ⟨"f", "f", ⟨0, 5⟩⟩ .argumentType
          "Placeholder 'x' is not allowed for argument 'n' of 'f' here" ⟨2, 3⟩,
        operatorIssue ⟨"f", "f", ⟨0, 5⟩⟩ .argumentType
          "Argument 'm' of 'f' must be a number, got 'y'" ⟨4, 5⟩] := by
    rw [check, checkOperator_own (find_operatorF _ _) rfl rfl, targetIssues,
      chainLength?_eq_none (by decide), usageIssues, if_pos]
    · decide +kernel
    · exact Operator.contains_arities mem_cons_self rfl
  rw [(check_allowing_placeholder operators 3 f).1, checked]
  exact ⟨rfl, by decide⟩

end Formula

end ModCheck
