import ModCheck.Formula.Check

/-
  Calls that stand elsewhere. What is reported about a chain does not depend on where it stands:
  if all its parts are moved, the issues are moved the same way (`checkOperator_move`). The issues
  of a chain come in parts, one for each thing that is looked at (`checkOperator_chain`), and so do
  those of a call with a body (`checkOperator_applied`); each part moves on its own.
-/

namespace ModCheck

open List

/-- New numbers for the characters where parts of a formula start and where they stop. A sign stays
one character long. -/
structure Relocation where
  start : Nat → Nat
  stop : Nat → Nat
  sign : ∀ n, stop (n + 1) = start n + 1

/-- All characters `n` further on. -/
def Relocation.shift (n : Nat) : Relocation where
  start := (· + n)
  stop := (· + n)
  sign k := Nat.add_right_comm k 1 n

variable (m : Relocation)

def CharRange.move (r : CharRange) : CharRange :=
  ⟨m.start r.start, m.stop r.stop⟩

def Issue.move (i : Issue) : Issue :=
  { i with range := i.range.move m }

def Argument.move (x : Argument) : Argument :=
  { x with span := x.span.move m, delimiterOffset := m.start x.delimiterOffset }

def Call.move (call : Call) : Call :=
  ⟨call.name, call.nameSpan.move m, call.arguments.map (·.move m), call.span.move m⟩

namespace Formula

/-! ## The issues of a chain -/

/-- The issues of arguments that a chain leaves over. -/
def surplusIssues (s : Checker) : Surplus → List Issue
  | .value => []
  | .misplaced issue => [issue]
  | .call inner => checkOperator s inner none

/-- The issues of the arguments of a chain that belong to `target`. -/
def targetIssues (s : Checker) (ctx : CallSite) (target : Operator) (xs : List Argument) :
    List Issue :=
  match chainLength? target xs none with
  | some n =>
    usageIssues s ctx target (xs.take n) true ++ surplusIssues s (surplus s.operators (xs.drop n))
  | none => usageIssues s ctx target xs false

/-- The issues of the arguments of a chain, by whose arguments they are. -/
def addressedIssues (s : Checker) (call : Call) (op : Operator) : Addressee → List Issue
  | .noDelegate => []
  | .noSubOperator =>
    [operatorIssue ⟨call.name, op.name, call.span⟩ .formulaArity
      ("'" ++ call.name ++ "' expects a sub-operator argument") call.span]
  | .unknownSubOperator owner first =>
    [{ Issue.ofUnknown s.limit .unknownSubOperator
          ("Unknown sub-operator '" ++ first.text ++ "' for '" ++ call.name ++ "'") first.text
          owner.subTable.names first.span with
        operator := some op.name }]
  | .operator target label xs => targetIssues s ⟨label, op.name, call.span⟩ target xs

theorem checkOperator_chain (s : Checker) (call : Call) :
    checkOperator s call none =
      match s.operators.find? call.name with
      | none =>
        [.ofUnknown s.limit .unknownOperator ("Unknown operator '" ++ call.name ++ "'") call.name
          s.operators.names call.nameSpan]
      | some op =>
        styleIssues call false op ++ delimiterIssues call op ++
          addressedIssues s call op (addressee s.operators op call) := by
  rw [checkOperator]
  cases s.operators.find? call.name with
  | none => rfl
  | some op =>
    dsimp only
    split
    · next h => rw [h]; rfl
    · next h => rw [h]; rfl
    · next h => rw [h]; rfl
    · next target label xs h =>
      rw [h, addressedIssues, targetIssues]
      cases chainLength? target xs none with
      | none => rfl
      | some n =>
        dsimp only
        split
        · next h' => rw [h']; rfl
        · next h' => rw [h']; rfl
        · next h' => rw [h']; rfl

/-- The issues of the arguments of a call with a body, and those of the body. -/
def appliedIssues (s : Checker) (call : Call) (op : Operator) (b : Body) : Addressee → List Issue
  | .operator target label xs =>
    let ctx : CallSite := ⟨label, op.name, call.span⟩
    if target.takesFormula then usageIssues s ctx target xs true ++ b.issues
    else bodyArgumentIssues ctx b ++ usageIssues s ctx target (xs ++ [bodyArgument b]) false
  | other => addressedIssues s call op other ++ b.issues

theorem checkOperator_applied (s : Checker) (call : Call) (b : Body) :
    checkOperator s call (some b) =
      match s.operators.find? call.name with
      | none =>
        .ofUnknown s.limit .unknownOperator ("Unknown operator '" ++ call.name ++ "'") call.name
          s.operators.names call.nameSpan :: b.issues
      | some op =>
        styleIssues call true op ++ delimiterIssues call op ++
          appliedIssues s call op b (addressee s.operators op call) := by
  rw [checkOperator]
  cases s.operators.find? call.name with
  | none => rfl
  | some op =>
    dsimp only
    congr 1
    split
    · next h => rw [h]; rfl
    · next h => rw [h]; rfl
    · next h => rw [h]; rfl
    · next target label xs h =>
      -- a body leaves nothing over in the chain
      have length : chainLength? target xs (some b) = none := by simp [chainLength?]
      rw [h, appliedIssues, length]

/-! ## Each part elsewhere -/

theorem styleIssues_move (call : Call) (hasBody : Bool) (op : Operator) :
    styleIssues (call.move m) hasBody op = (styleIssues call hasBody op).map (·.move m) := by
  unfold styleIssues
  cases op.functionStyle <;> cases hasBody <;> rfl

theorem delimiterIssues_move (call : Call) (op : Operator) :
    delimiterIssues (call.move m) op = (delimiterIssues call op).map (·.move m) := by
  unfold delimiterIssues
  rw [map_filterMap, Call.move, filterMap_map]
  congr 1
  funext x
  simp only [Function.comp_apply, Argument.move, apply_ite (Option.map _), Option.map_none,
    Option.map_some, Issue.move, CharRange.move, m.sign]

theorem numericIssues_move (s : Checker) (label operator : String) (span : CharRange)
    (spec : ArgumentSpec) (x : Argument) :
    numericIssues s ⟨label, operator, span.move m⟩ spec (x.move m) =
      (numericIssues s ⟨label, operator, span⟩ spec x).map (·.move m) := by
  simp only [numericIssues, apply_ite (List.map _)]
  rfl

theorem usageIssues_move (s : Checker) (label operator : String) (span : CharRange)
    (op : Operator) (xs : List Argument) (hasFormula : Bool) :
    usageIssues s ⟨label, operator, span.move m⟩ op (xs.map (·.move m)) hasFormula =
      (usageIssues s ⟨label, operator, span⟩ op xs hasFormula).map (·.move m) := by
  unfold usageIssues
  rw [length_map]
  split
  · split
    · rfl
    · rw [map_append, map_flatMap, zip_map_left, flatMap_map]
      congr 1
      · congr 1
        funext p
        exact numericIssues_move m s label operator span p.2 p.1
      · split <;> rfl
  · rfl

/-- Where the last of some arguments stops. -/
theorem lastStop_move (xs : List Argument) (n : Nat) :
    ((xs.map (·.move m)).getLast?.map (·.span.stop)).getD (m.stop n) =
      m.stop ((xs.getLast?.map (·.span.stop)).getD n) := by
  rw [getLast?_map]
  cases xs.getLast? <;> rfl

/-- What arguments left over are, elsewhere. -/
def Surplus.move : Surplus → Surplus
  | .value => .value
  | .misplaced issue => .misplaced (issue.move m)
  | .call inner => .call (inner.move m)

theorem surplus_move (operators : NameTable Operator) (xs : List Argument) :
    surplus operators (xs.map (·.move m)) = (surplus operators xs).move m := by
  cases xs with
  | nil => rfl
  | cons head rest =>
    simp only [map_cons, surplus, Argument.move, isEmpty_map]
    split
    · cases rest <;> rfl
    · split
      · rfl
      · simp only [Surplus.move, Call.move, Surplus.call.injEq, Call.mk.injEq, true_and]
        exact ⟨rfl, congrArg _ (lastStop_move m rest head.span.stop)⟩

/-- Whose arguments they are, elsewhere. -/
def Addressee.move : Addressee → Addressee
  | .operator op label xs => .operator op label (xs.map (·.move m))
  | .noDelegate => .noDelegate
  | .noSubOperator => .noSubOperator
  | .unknownSubOperator owner first => .unknownSubOperator owner (first.move m)

theorem chooseSubOperator_move (owner : Operator) (label : String) (xs : List Argument) :
    chooseSubOperator owner label (xs.map (·.move m)) =
      (chooseSubOperator owner label xs).move m := by
  cases xs with
  | nil => rfl
  | cons first rest =>
    simp only [map_cons, chooseSubOperator, Argument.move]
    split <;> rfl

theorem addressee_move (operators : NameTable Operator) (op : Operator) (call : Call) :
    addressee operators op (call.move m) = (addressee operators op call).move m := by
  simp only [addressee, Call.move, chooseSubOperator_move]
  split
  · split
    · split <;> rfl
    · rfl
  · split <;> rfl

/-! ## The whole chain elsewhere -/

/-- The issues of a chain move with it. -/
theorem checkOperator_move (s : Checker) (call : Call) :
    checkOperator s (call.move m) none = (checkOperator s call none).map (·.move m) := by
  induction hn : call.arguments.length using Nat.strongRecOn generalizing call with
  | _ n ih =>
    have nested {xs : List Argument} (hxs : xs.length ≤ n) :
        surplusIssues s (surplus s.operators (xs.map (·.move m))) =
          (surplusIssues s (surplus s.operators xs)).map (·.move m) := by
      rw [surplus_move]
      cases h : surplus s.operators xs with
      | value => rfl
      | misplaced issue => rfl
      | call inner =>
        have shorter := surplus_length_lt h
        exact ih _ (by omega) inner rfl
    have name : (call.move m).name = call.name := rfl
    rw [checkOperator_chain, checkOperator_chain, name]
    cases s.operators.find? call.name with
    | none => rfl
    | some op =>
      dsimp only
      rw [styleIssues_move, delimiterIssues_move, addressee_move, map_append, map_append]
      congr 1
      cases h : addressee s.operators op call with
      | noDelegate => rfl
      | noSubOperator => rfl
      | unknownSubOperator owner first => rfl
      | operator target label xs =>
        have fewer := addressee_length_le h
        have length :
            chainLength? target (xs.map (·.move m)) none = chainLength? target xs none := by
          simp only [chainLength?, length_map]
        simp only [Addressee.move, addressedIssues, targetIssues, length]
        cases chainLength? target xs none with
        | none => exact usageIssues_move m s label op.name call.span target xs false
        | some k =>
          dsimp only
          rw [← map_take, ← map_drop, map_append, nested (by rw [length_drop]; omega)]
          congr 1
          exact usageIssues_move m s label op.name call.span target (xs.take k) true

end Formula

end ModCheck
