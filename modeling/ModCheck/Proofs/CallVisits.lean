import ModCheck.Proofs.CallUsages
import ModCheck.Proofs.FormulaRepair

/-
  Every call of a formula is looked at once. A chain has at most one issue about an unknown
  operator: at its name, or at an argument that is called inside it (`visited_chain`). A call with a
  body has one at its name at most, and whatever else is wrong with it, the issues of the body are
  all there (`unknowns_applied`). So these issues come call by call (`unknowns_check`), and no two
  of them stand at one place, since the names and arguments of a formula start at different
  characters. Main statement: `unknown_operators_once`.
-/

namespace ModCheck.Formula

open List

/-! ## Issues about unknown operators -/

/-- The issue of a call whose name is no operator. -/
def unknownName (s : Checker) (call : Call) : Issue :=
  .ofUnknown s.limit .unknownOperator ("Unknown operator '" ++ call.name ++ "'") call.name
    s.operators.names call.nameSpan

/-- The issues about unknown operators. -/
def unknowns (issues : List Issue) : List Issue :=
  issues.filter (·.code == .unknownOperator)

@[simp]
theorem unknowns_append (issues more : List Issue) :
    unknowns (issues ++ more) = unknowns issues ++ unknowns more :=
  filter_append issues more

theorem unknowns_cons_of_ne {i : Issue} (h : i.code ≠ .unknownOperator) (issues : List Issue) :
    unknowns (i :: issues) = unknowns issues :=
  filter_cons_of_neg (by simpa using h)

theorem unknowns_of_quiet {issues : List Issue} (h : ∀ i ∈ issues, i.Quiet) :
    unknowns issues = [] := by
  refine filter_eq_nil_iff.2 fun i hi code => ?_
  have quiet := (h i hi).code
  rw [eq_of_beq code] at quiet
  exact absurd quiet (by decide)

@[simp]
theorem unknowns_styleIssues (call : Call) (hasBody : Bool) (op : Operator) :
    unknowns (styleIssues call hasBody op) = [] :=
  unknowns_of_quiet (quiet_styleIssues call hasBody op)

@[simp]
theorem unknowns_delimiterIssues (call : Call) (op : Operator) :
    unknowns (delimiterIssues call op) = [] := by
  refine filter_eq_nil_iff.2 fun i hi => ?_
  obtain ⟨x, -, e⟩ := mem_filterMap.1 hi
  split at e
  · simp at e
  · obtain rfl := Option.some.inj e
    simp

@[simp]
theorem unknowns_usageIssues (s : Checker) (ctx : CallSite) (op : Operator) (xs : List Argument)
    (hasFormula : Bool) : unknowns (usageIssues s ctx op xs hasFormula) = [] :=
  unknowns_of_quiet (quiet_usageIssues s ctx op xs hasFormula)

/-! ## One call -/

/-- The issues about unknown operators that a call has, without those of its body: about its name,
about an argument that is called inside it, or none. -/
inductive Visited (s : Checker) (call : Call) : List Issue → Prop
  | name (unknown : s.operators.find? call.name = none) : Visited s call [unknownName s call]
  | silent (known : s.operators.find? call.name ≠ none) : Visited s call []
  | argument {x : Argument} {i : Issue} (known : s.operators.find? call.name ≠ none)
      (hx : x ∈ call.arguments) (word : x.isNumber = false) (range : i.range = x.span) :
      Visited s call [i]

theorem visited_chain (s : Checker) (call : Call) :
    Visited s call (unknowns (checkOperator s call none)) := by
  induction hn : call.arguments.length using Nat.strongRecOn generalizing call with
  | _ n ih =>
    rw [checkOperator_chain]
    cases found : s.operators.find? call.name with
    | none => exact .name found
    | some op =>
      have known : s.operators.find? call.name ≠ none := by simp [found]
      simp only [unknowns_append, unknowns_styleIssues, unknowns_delimiterIssues]
      cases addressed : addressee s.operators op call with
      | noDelegate => exact .silent known
      | noSubOperator => exact .silent known
      | unknownSubOperator owner first => exact .silent known
      | operator target label xs =>
        rw [addressedIssues, targetIssues]
        cases chainLength? target xs none with
        | none =>
          rw [unknowns_usageIssues]
          exact .silent known
        | some k =>
          rw [unknowns_append, unknowns_usageIssues]
          cases left : surplus s.operators (xs.drop k) with
          | value => exact .silent known
          | misplaced issue =>
            obtain ⟨head, extra, rest, -, rfl⟩ := surplus_eq_misplaced left
            exact .silent known
          | call inner =>
            have fewer := addressee_length_le addressed
            have shorter := surplus_length_lt left
            rw [length_drop] at shorter
            obtain ⟨head, hhead, -, hspan, word, others⟩ := exists_head addressed left
            have nested := ih inner.arguments.length (by omega) inner rfl
            rw [surplusIssues]
            generalize unknowns (checkOperator s inner none) = issues at nested ⊢
            cases nested with
            | name unknown => exact .argument known hhead word hspan
            | silent _ => exact .silent known
            | argument _ hx word' range => exact .argument known (others hx) word' range

/-- The issues about unknown operators that one call of a formula has. With a body, no call stands
inside its chain. -/
def visit (s : Checker) (c : Call × Bool) : List Issue :=
  if c.2 then
    if s.operators.find? c.1.name = none then [unknownName s c.1] else []
  else unknowns (checkOperator s c.1 none)

theorem visited_visit (s : Checker) (c : Call × Bool) : Visited s c.1 (visit s c) := by
  unfold visit
  split
  · split
    · next unknown => exact .name unknown
    · next known => exact .silent known
  · exact visited_chain s c.1

theorem visit_of_unknown {s : Checker} {c : Call × Bool} (h : s.operators.find? c.1.name = none) :
    visit s c = [unknownName s c.1] := by
  have visited := visited_visit s c
  generalize visit s c = issues at visited ⊢
  cases visited with
  | name _ => rfl
  | silent known => exact absurd h known
  | argument known => exact absurd h known

/-- Whatever is wrong with a call, the issues of its body are all there, and once. A body that is
taken for an argument has none. -/
theorem unknowns_applied (s : Checker) (call : Call) {b : Body}
    (plain : (plainBody? b.formula).isSome = true → b.issues = []) :
    unknowns (checkOperator s call (some b)) = visit s (call, true) ++ unknowns b.issues := by
  rw [checkOperator_applied, visit, if_pos rfl]
  cases s.operators.find? call.name with
  | none => rfl
  | some op =>
    simp only [unknowns_append, unknowns_styleIssues, unknowns_delimiterIssues, nil_append,
      reduceCtorEq, if_false]
    cases addressee s.operators op call with
    | noDelegate => rfl
    | noSubOperator => rfl
    | unknownSubOperator owner first => rfl
    | operator target label xs =>
      rw [appliedIssues]
      split
      · simp
      · rw [unknowns_append, unknowns_usageIssues, append_nil, bodyArgumentIssues]
        split
        · next isPlain => rw [plain isPlain]
        · exact unknowns_cons_of_ne (by simp [operatorIssue]) b.issues

/-! ## All calls -/

theorem check_of_plainBody {f : Formula} (h : (plainBody? f).isSome = true) (s : Checker) :
    f.check s = [] := by
  unfold plainBody? at h
  split at h
  · rfl
  · rfl
  · rfl
  · simp at h

/-- The issues about unknown operators come call by call. -/
theorem unknowns_check (s : Checker) (f : Formula) :
    unknowns (f.check s) = f.calls.flatMap (visit s) := by
  induction f with
  | literal value span => rfl
  | «variable» name span => rfl
  | negation operand span ih => exact ih
  | binary op left right span ihl ihr =>
    rw [check, unknowns_append, ihl, ihr, calls, flatMap_append]
  | chain call => exact (append_nil _).symm
  | applied call body span ih =>
    have plain : (plainBody? body).isSome = true → body.check s = [] :=
      fun plain => check_of_plainBody plain s
    rw [check, unknowns_applied s call plain, ih, calls, flatMap_cons]

theorem Visited.starts_sublist {s : Checker} {call : Call} {issues : List Issue}
    (h : Visited s call issues) : (issues.map (·.range.start)).Sublist (callMarks call) := by
  cases h with
  | name unknown => exact singleton_sublist.2 mem_cons_self
  | silent known => exact nil_sublist _
  | @argument x i known hx word range =>
    refine singleton_sublist.2 (mem_cons_of_mem _ (mem_flatMap.2 ⟨x, hx, ?_⟩))
    simp [argumentMarks, range]

theorem starts_sublist (s : Checker) (cs : List (Call × Bool)) :
    ((cs.flatMap (visit s)).map (·.range.start)).Sublist (cs.flatMap fun c => callMarks c.1) := by
  induction cs with
  | nil => exact nil_sublist _
  | cons c cs ih =>
    rw [flatMap_cons, map_append]
    exact (visited_visit s c).starts_sublist.append ih

/-- No two issues about unknown operators start at one character. -/
theorem nodup_starts_unknowns {text : String} {f : Formula} (h : parse text = .ok f) (s : Checker) :
    ((unknowns (f.check s)).map (·.range.start)).Nodup := by
  rw [unknowns_check]
  exact (starts_sublist s f.calls).nodup (nodup_marks h)

theorem filter_eq_singleton {α β : Type} {g : α → β} {p : α → Bool} {l : List α} {a : α}
    (distinct : (l.map g).Nodup) (ha : a ∈ l) (hp : p a = true)
    (same : ∀ x, p x = true → g x = g a) : l.filter p = [a] := by
  obtain ⟨before, behind, rfl⟩ := append_of_mem ha
  rw [map_append, map_cons, nodup_middle, nodup_cons, ← map_append] at distinct
  have none : (before ++ behind).filter p = [] := by
    refine filter_eq_nil_iff.2 fun x hx hpx => ?_
    exact distinct.1 (mem_map.2 ⟨x, hx, same x hpx⟩)
  rw [filter_append, append_eq_nil_iff] at none
  rw [filter_append, filter_cons_of_pos hp, none.1, none.2, nil_append]

/-- Every call is looked at once, wherever it stands: if its name is no operator, there is exactly
one issue about an unknown operator at its name. All others stand at a name among arguments. -/
theorem unknown_operators_once {text : String} {f : Formula} (parsed : parse text = .ok f)
    (s : Checker) :
    (∀ c ∈ f.calls, s.operators.find? c.1.name = none →
      (unknowns (f.check s)).filter (·.range = c.1.nameSpan) = [unknownName s c.1]) ∧
    ∀ i ∈ unknowns (f.check s),
      (∃ c ∈ f.calls, s.operators.find? c.1.name = none ∧ i = unknownName s c.1) ∨
        ∃ c ∈ f.calls, ∃ x ∈ c.1.arguments, x.isNumber = false ∧ i.range = x.span := by
  constructor
  · intro c hc unknown
    have here : unknownName s c.1 ∈ unknowns (f.check s) := by
      rw [unknowns_check]
      exact mem_flatMap.2 ⟨c, hc, visit_of_unknown unknown ▸ mem_singleton_self _⟩
    refine filter_eq_singleton (nodup_starts_unknowns parsed s) here (decide_eq_true rfl) ?_
    intro i hi
    rw [of_decide_eq_true hi]
    rfl
  · intro i hi
    rw [unknowns_check] at hi
    obtain ⟨c, hc, hi⟩ := mem_flatMap.1 hi
    have visited := visited_visit s c
    generalize visit s c = issues at visited hi
    cases visited with
    | name unknown => exact Or.inl ⟨c, hc, unknown, mem_singleton.1 hi⟩
    | silent known => simp at hi
    | argument known hx word range =>
      obtain rfl := mem_singleton.1 hi
      exact Or.inr ⟨c, hc, _, hx, word, range⟩

/-- A call in a body that its operator cannot take. -/
theorem unknown_operators_once_in_refused_body :
    let s := checkerF false [[⟨"n", .numeric⟩]]
    let inner : Call := ⟨"a", ⟨2, 3⟩, [], ⟨2, 4⟩⟩
    let f : Formula := .applied ⟨"f", ⟨0, 1⟩, [], ⟨0, 5⟩⟩ (.chain inner) ⟨1, 5⟩
    parse "f(a:)" = .ok f ∧ s.operators.find? inner.name = none ∧
      (unknowns (f.check s)).filter (·.range = ⟨2, 3⟩) = [unknownName s inner] := by
  intro s inner f
  have parsed : parse "f(a:)" = .ok f := by
    decide +kernel
  have unknown : s.operators.find? inner.name = none := by decide
  refine ⟨parsed, unknown, ?_⟩
  exact (unknown_operators_once parsed s).1 (inner, false) (by simp [f, calls]) unknown

end ModCheck.Formula
