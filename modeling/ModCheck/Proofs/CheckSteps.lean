import ModCheck.Proofs.MovedCalls

/-
  Why the check of a formula ends. A chain is checked in one step (`chainStep`), which gives the
  issues of the chain itself and the call that it leaves over, if any. That call is no part of the
  formula: it is put together from arguments, and which operator it is checked against depends on
  the operators alone, so nothing about the formula gets smaller but the number of arguments
  (`chainStep_fewer`). All other steps go from a formula to a part of it. The check is the one
  solution of the equations that these steps make up (`check_ends`).
-/

namespace ModCheck.Formula

open List

variable {s : Checker} {call inner : Call}

/-! ## One call -/

/-- The issues of arguments left over, without those of a call, and the call. -/
def surplusStep : Surplus → List Issue × Option Call
  | .value => ([], none)
  | .misplaced issue => ([issue], none)
  | .call inner => ([], some inner)

/-- The issues of the arguments that belong to `target`, and the call that they leave over. -/
def targetStep (s : Checker) (ctx : CallSite) (target : Operator) (xs : List Argument) :
    List Issue × Option Call :=
  match chainLength? target xs none with
  | some n =>
    let left := surplusStep (surplus s.operators (xs.drop n))
    (usageIssues s ctx target (xs.take n) true ++ left.1, left.2)
  | none => (usageIssues s ctx target xs false, none)

/-- The issues of a chain itself, and the call that it leaves over. -/
def chainStep (s : Checker) (call : Call) : List Issue × Option Call :=
  match s.operators.find? call.name with
  | none =>
    ([.ofUnknown s.limit .unknownOperator ("Unknown operator '" ++ call.name ++ "'") call.name
      s.operators.names call.nameSpan], none)
  | some op =>
    let form := styleIssues call false op ++ delimiterIssues call op
    match addressee s.operators op call with
    | .operator target label xs =>
      let step := targetStep s ⟨label, op.name, call.span⟩ target xs
      (form ++ step.1, step.2)
    | other => (form ++ addressedIssues s call op other, none)

theorem targetStep_fewer {ctx : CallSite} {target : Operator} {xs : List Argument}
    (h : (targetStep s ctx target xs).2 = some inner) : inner.arguments.length < xs.length := by
  unfold targetStep at h
  split at h
  · next n _ =>
    cases left : surplus s.operators (xs.drop n) with
    | value => simp [left, surplusStep] at h
    | misplaced issue => simp [left, surplusStep] at h
    | call inner' =>
      rw [left] at h
      obtain rfl : inner' = inner := Option.some.inj h
      have fewer := surplus_length_lt left
      rw [length_drop] at fewer
      omega
  · simp at h

/-- A call that is left over has fewer arguments than the one it is cut from: one of its arguments
is its name now. -/
theorem chainStep_fewer (h : (chainStep s call).2 = some inner) :
    inner.arguments.length < call.arguments.length := by
  unfold chainStep at h
  split at h
  · simp at h
  · next op _ =>
    cases addressed : addressee s.operators op call with
    | operator target label xs =>
      rw [addressed] at h
      exact Nat.lt_of_lt_of_le (targetStep_fewer h) (addressee_length_le addressed)
    | noDelegate => simp [addressed] at h
    | noSubOperator => simp [addressed] at h
    | unknownSubOperator owner first => simp [addressed] at h

/-- The issues of a call that may be left over. -/
def insideIssues (check : Call → List Issue) : Option Call → List Issue
  | none => []
  | some inner => check inner

theorem targetIssues_step (ctx : CallSite) (target : Operator) (xs : List Argument) :
    targetIssues s ctx target xs = (targetStep s ctx target xs).1 ++
      insideIssues (checkOperator s · none) (targetStep s ctx target xs).2 := by
  unfold targetIssues targetStep
  cases chainLength? target xs none with
  | none => simp [insideIssues]
  | some n =>
    dsimp only
    cases surplus s.operators (xs.drop n) <;> simp [surplusIssues, surplusStep, insideIssues]

/-- The issues of a chain are its own and, behind them, those of the call that it leaves over. -/
theorem checkOperator_step (s : Checker) (call : Call) :
    checkOperator s call none = (chainStep s call).1 ++
      insideIssues (checkOperator s · none) (chainStep s call).2 := by
  rw [checkOperator_chain]
  unfold chainStep
  cases s.operators.find? call.name with
  | none => simp [insideIssues]
  | some op =>
    dsimp only
    cases addressee s.operators op call with
    | operator target label xs =>
      rw [addressedIssues, targetIssues_step]
      simp
    | noDelegate => simp [insideIssues]
    | noSubOperator => simp [insideIssues]
    | unknownSubOperator owner first => simp [insideIssues]

/-! ## Tasks -/

/-- What a check looks at: a part of the formula, or a call that a chain leaves over. -/
inductive Task where
  | part (formula : Formula)
  | leftOver (call : Call)

/-- The parts that a formula is directly made of. -/
def parts : Formula → List Formula
  | .literal _ _ => []
  | .variable _ _ => []
  | .negation operand _ => [operand]
  | .binary _ left right _ => [left, right]
  | .chain _ => []
  | .applied _ body _ => [body]

/-- How much there is of a formula: its parts, and the arguments of its chains. -/
def weight : Formula → Nat
  | .literal _ _ => 1
  | .variable _ _ => 1
  | .negation operand _ => operand.weight + 1
  | .binary _ left right _ => left.weight + right.weight + 1
  | .chain call => call.arguments.length + 1
  | .applied _ body _ => body.weight + 1

theorem weight_lt_of_mem_parts {f g : Formula} (h : g ∈ f.parts) : g.weight < f.weight := by
  cases f with
  | literal => simp [parts] at h
  | «variable» => simp [parts] at h
  | chain => simp [parts] at h
  | negation operand span =>
    obtain rfl : g = operand := by simpa [parts] using h
    exact Nat.lt_succ_self _
  | binary op left right span =>
    obtain rfl | rfl : g = left ∨ g = right := by simpa [parts] using h
    · exact Nat.lt_succ_of_le (Nat.le_add_right _ _)
    · exact Nat.lt_succ_of_le (Nat.le_add_left _ _)
  | applied call body span =>
    obtain rfl : g = body := by simpa [parts] using h
    exact Nat.lt_succ_self _

/-- The chain that a task is, if it is one. -/
def Task.chain? : Task → Option Call
  | .part (.chain call) => some call
  | .part _ => none
  | .leftOver call => some call

/-- What a task asks for: the parts of a formula, and the call that a chain leaves over. -/
def Task.next (s : Checker) (task : Task) : List Task :=
  (match task with
    | .part f => f.parts.map Task.part
    | .leftOver _ => []) ++
  match task.chain? with
  | some call => (chainStep s call).2.toList.map Task.leftOver
  | none => []

/-- The issues that a task gives. -/
def Task.issues (s : Checker) : Task → List Issue
  | .part f => check s f
  | .leftOver call => checkOperator s call none

/-- The issues of a task, if those of other tasks are known. -/
def Task.issuesFrom (s : Checker) (known : Task → List Issue) : Task → List Issue
  | .part (.literal _ _) => []
  | .part (.variable _ _) => []
  | .part (.negation operand _) => known (.part operand)
  | .part (.binary _ left right _) => known (.part left) ++ known (.part right)
  | .part (.applied call body span) =>
    match s.operators.find? call.name with
    | none =>
      .ofUnknown s.limit .unknownOperator ("Unknown operator '" ++ call.name ++ "'") call.name
        s.operators.names call.nameSpan :: known (.part body)
    | some op =>
      styleIssues call true op ++ delimiterIssues call op ++
        appliedIssues s call op ⟨body, span, known (.part body)⟩ (addressee s.operators op call)
  | .part (.chain call) =>
    (chainStep s call).1 ++ insideIssues (known ∘ .leftOver) (chainStep s call).2
  | .leftOver call =>
    (chainStep s call).1 ++ insideIssues (known ∘ .leftOver) (chainStep s call).2

theorem Task.issues_eq (task : Task) : task.issues s = task.issuesFrom s (Task.issues s) := by
  cases task with
  | leftOver call => exact checkOperator_step s call
  | part f =>
    cases f with
    | literal => rfl
    | «variable» => rfl
    | negation operand span => rfl
    | binary op left right span => rfl
    | chain call => exact checkOperator_step s call
    | applied call body span => exact checkOperator_applied s call _

/-- Nothing else is asked for. -/
theorem Task.issuesFrom_congr {known known' : Task → List Issue} {task : Task}
    (h : ∀ next ∈ task.next s, known next = known' next) :
    task.issuesFrom s known = task.issuesFrom s known' := by
  have inside (call : Call) (hc : task.chain? = some call) :
      insideIssues (known ∘ .leftOver) (chainStep s call).2 =
        insideIssues (known' ∘ .leftOver) (chainStep s call).2 := by
    cases left : (chainStep s call).2 with
    | none => rfl
    | some inner => exact h _ (by simp [Task.next, hc, left])
  have part (f g : Formula) (ht : task = .part f) (hg : g ∈ f.parts) :
      known (.part g) = known' (.part g) := by
    subst ht
    exact h _ (mem_append_left _ (mem_map_of_mem hg))
  cases task with
  | leftOver call => simp only [Task.issuesFrom, inside call rfl]
  | part f =>
    cases f with
    | literal => rfl
    | «variable» => rfl
    | negation operand span => exact part _ _ rfl (by simp [parts])
    | binary op left right span =>
      simp only [Task.issuesFrom, part _ left rfl (by simp [parts]),
        part _ right rfl (by simp [parts])]
    | chain call => simp only [Task.issuesFrom, inside call rfl]
    | applied call body span => simp only [Task.issuesFrom, part _ body rfl (by simp [parts])]

/-! ## The end of a check -/

/-- What is asked for is a part of a formula, or a call that is left over. -/
theorem Task.next_cases {task next : Task} (h : next ∈ task.next s) :
    (∃ f g, task = .part f ∧ next = .part g ∧ g ∈ f.parts) ∨
      ∃ call inner, task.chain? = some call ∧ next = .leftOver inner ∧
        (chainStep s call).2 = some inner := by
  rcases mem_append.1 h with h | h
  · cases task with
    | leftOver call => simp at h
    | part f =>
      obtain ⟨g, hg, rfl⟩ := mem_map.1 h
      exact .inl ⟨f, g, rfl, rfl, hg⟩
  · cases hc : task.chain? with
    | none => simp [hc] at h
    | some call =>
      rw [hc] at h
      obtain ⟨inner, hinner, rfl⟩ := mem_map.1 h
      exact .inr ⟨call, inner, rfl, rfl, Option.mem_toList.1 hinner⟩

/-- How much there is to a task. -/
def Task.weight : Task → Nat
  | .part f => f.weight
  | .leftOver call => call.arguments.length

theorem Task.length_le_weight {task : Task} (h : task.chain? = some call) :
    call.arguments.length ≤ task.weight := by
  cases task with
  | leftOver call' => exact Nat.le_of_eq (congrArg (·.arguments.length) (Option.some.inj h)).symm
  | part f =>
    cases f with
    | chain call' =>
      obtain rfl := Option.some.inj h
      exact Nat.le_succ _
    | _ => simp [Task.chain?] at h

theorem Task.weight_next {task next : Task} (h : next ∈ task.next s) :
    next.weight < task.weight := by
  rcases Task.next_cases h with ⟨f, g, rfl, rfl, hg⟩ | ⟨call, inner, hc, rfl, left⟩
  · exact weight_lt_of_mem_parts hg
  · exact Nat.lt_of_lt_of_le (chainStep_fewer left) (Task.length_le_weight hc)

theorem wellFounded_next (s : Checker) : WellFounded fun next task : Task => next ∈ task.next s :=
  Subrelation.wf Task.weight_next (InvImage.wf Task.weight Nat.lt_wfRel.wf)

/-- Whatever the operators are, a check ends. A call that a chain leaves over has fewer arguments
than the chain, and every other step goes from a formula to a part of it; each step takes away from
the parts and arguments there are, so no task asks for tasks without end. The issues of all tasks
are the only ones that agree with what each task makes of those it asks for. -/
theorem check_ends (s : Checker) :
    (∀ call inner, (chainStep s call).2 = some inner →
      inner.arguments.length < call.arguments.length) ∧
    (∀ task next : Task, next ∈ task.next s → next.weight < task.weight ∧
      ((∃ f g, task = .part f ∧ next = .part g ∧ g ∈ f.parts) ∨
        ∃ call inner, task.chain? = some call ∧ next = .leftOver inner ∧
          (chainStep s call).2 = some inner)) ∧
    (WellFounded fun next task : Task => next ∈ task.next s) ∧
    ∀ known : Task → List Issue,
      (∀ task, known task = task.issuesFrom s known) ↔ known = Task.issues s := by
  refine ⟨fun _ _ => chainStep_fewer, fun task next h => ⟨Task.weight_next h, Task.next_cases h⟩,
    wellFounded_next s, fun known => ⟨fun h => ?_, ?_⟩⟩
  · funext task
    induction task using (wellFounded_next s).induction with
    | _ task ih => rw [h task, Task.issues_eq, Task.issuesFrom_congr ih]
  · rintro rfl task
    exact task.issues_eq

/-- An operator that takes a formula and nothing else, and two that delegate to each other. -/
def circle : Checker :=
  let op (name : String) (usages : List Usage) (delegate : Option String) : Operator :=
    ⟨name, [], none, false, usages, [], delegate, []⟩
  ⟨Operator.table [op "f" [[⟨"body", .formula⟩]] none, op "a" [] (some "b"),
    op "b" [] (some "a")], 3, false⟩

/-- In `f:f:a` all arguments are left over, again and again. -/
theorem check_ends_in_circle :
    let f : Argument := ⟨"f", false, ⟨2, 3⟩, ':', 1⟩
    let a : Argument := ⟨"a", false, ⟨4, 5⟩, ':', 3⟩
    let call : Call := ⟨"f", ⟨0, 1⟩, [f, a], ⟨0, 5⟩⟩
    let inner : Call := ⟨"f", ⟨2, 3⟩, [a], ⟨2, 5⟩⟩
    let last : Call := ⟨"a", ⟨4, 5⟩, [], ⟨4, 5⟩⟩
    (chainStep circle call).2 = some inner ∧ (chainStep circle inner).2 = some last ∧
      (chainStep circle last).2 = none ∧ inner.arguments.length < call.arguments.length ∧
      last.arguments.length < inner.arguments.length := by
  intro f a call inner last
  have first : (chainStep circle call).2 = some inner := by decide +kernel
  have second : (chainStep circle inner).2 = some last := by decide +kernel
  exact ⟨first, second, by decide +kernel, (check_ends circle).1 _ _ first,
    (check_ends circle).1 _ _ second⟩

end ModCheck.Formula
