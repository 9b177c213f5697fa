import ModCheck.Proofs.CallTexts
import ModCheck.Proofs.MovedCalls

/-
  Calls against the usages of their operator. A call is held against a single usage, chosen by the
  number of its plain arguments and by whether it has a formula behind them
  (`usageIssues_eq_nil_iff`). Usages of the same length are not tried in turn: a chain has to suit
  the first of them. A usage that ends in a formula takes its arguments off any longer chain, and
  the others have to stand for the formula (`LeftOver`). Where no usage of the length ends in a
  formula, a call with a body is held against one that does not.
-/

namespace ModCheck

open List

variable {usage : Usage}

/-! ## Usages by number of arguments -/

theorem mem_eraseRepsBy_loop {x a : Nat} {as rs : List Nat} :
    x ∈ List.eraseRepsBy.loop (· == ·) a as rs ↔ x = a ∨ x ∈ as ∨ x ∈ rs := by
  induction as generalizing a rs with
  | nil => simp [List.eraseRepsBy.loop, or_comm]
  | cons b as ih =>
    rw [List.eraseRepsBy.loop]
    split
    · next h =>
      grind
    · rw [ih]
      grind

theorem mem_eraseReps {x : Nat} {as : List Nat} : x ∈ as.eraseReps ↔ x ∈ as := by
  cases as with
  | nil => rfl
  | cons a as =>
    rw [List.eraseReps, List.eraseRepsBy, mem_eraseRepsBy_loop]
    simp

theorem plainArguments_eq_self (plain : ∀ a ∈ usage, a.kind ≠ .formula) :
    plainArguments usage = usage :=
  filter_eq_self.2 fun a ha => by simpa using plain a ha

theorem endsInFormula_eq_false (plain : ∀ a ∈ usage, a.kind ≠ .formula) :
    endsInFormula usage = false := by
  unfold endsInFormula
  cases h : usage.getLast? with
  | none => rfl
  | some a => simpa using plain a (mem_of_getLast? h)

theorem length_pos_of_endsInFormula (h : endsInFormula usage = true) : 0 < usage.length := by
  cases usage with
  | nil => exact absurd h (by decide)
  | cons a usage => exact Nat.succ_pos _

namespace Operator

variable {count : Nat} {op : Operator}

/-- Whether a sign may stand between the arguments. -/
def Allows (op : Operator) (delimiter : Char) : Prop :=
  delimiter = ':' ∨ delimiter = '(' ∨ delimiter.toString ∈ op.alternateDelimiters

/-- The first usage with `count` plain arguments and no formula at the end. -/
def firstUsage? (op : Operator) (count : Nat) : Option Usage :=
  op.usages.find? fun usage => (plainArguments usage).length == count && !endsInFormula usage

/-- The usage with a formula that takes its arguments off a longer chain. -/
structure Splits (op : Operator) (count : Nat) (usage : Usage) : Prop where
  declared : usage ∈ op.usages
  formula : endsInFormula usage = true
  short : usage.length ≤ count
  longest : ∀ other ∈ op.usages, endsInFormula other = true → other.length ≤ count →
    other.length ≤ usage.length

theorem mem_arities :
    count ∈ op.arities ↔ ∃ usage ∈ op.usages, (plainArguments usage).length = count := by
  unfold arities
  rw [mem_eraseReps, mem_mergeSort, mem_map]

theorem contains_arities (declared : usage ∈ op.usages)
    (plain : (plainArguments usage).length = count) : op.arities.contains count = true :=
  contains_iff_mem.2 (mem_arities.2 ⟨usage, declared, plain⟩)

/-- The usage that arguments are held against. -/
theorem usageWith?_eq_some {formula : Bool} (h : op.usageWith? count formula = some usage) :
    usage ∈ op.usages ∧ (plainArguments usage).length = count ∧
      (endsInFormula usage = formula ∨
        ∀ other ∈ op.usages, (plainArguments other).length = count →
          endsInFormula other ≠ formula) := by
  rcases Option.or_eq_some_iff.1 h with h | ⟨hnone, h⟩
  · have := find?_some h
    simp only [Bool.and_eq_true, beq_iff_eq] at this
    exact ⟨mem_of_find?_eq_some h, this.1, Or.inl this.2⟩
  · have := find?_some h
    refine ⟨mem_of_find?_eq_some h, beq_iff_eq.1 this, Or.inr fun other hother hcount e => ?_⟩
    exact find?_eq_none.1 hnone other hother (by simp [hcount, e])

theorem exists_usageWith? (h : count ∈ op.arities) (formula : Bool) :
    ∃ usage, op.usageWith? count formula = some usage := by
  obtain ⟨usage, hmem, hcount⟩ := mem_arities.1 h
  cases e : op.usageWith? count formula with
  | some usage => exact ⟨usage, rfl⟩
  | none =>
    have := find?_eq_none.1 (Option.or_eq_none_iff.1 e).2 usage hmem
    simp [hcount] at this

theorem exists_firstUsage? (declared : usage ∈ op.usages) (plain : ∀ a ∈ usage, a.kind ≠ .formula) :
    ∃ first, op.firstUsage? usage.length = some first ∧
      op.usageWith? usage.length false = some first := by
  have found : (op.firstUsage? usage.length).isSome = true := by
    unfold firstUsage?
    rw [find?_isSome]
    exact ⟨usage, declared, by
      simp [plainArguments_eq_self plain, endsInFormula_eq_false plain]⟩
  obtain ⟨first, e⟩ := Option.isSome_iff_exists.1 found
  refine ⟨first, e, ?_⟩
  unfold usageWith?
  unfold firstUsage? at e
  simp only [beq_false, e, Option.some_or]

end Operator

namespace Formula

variable {call : Call} {ctx : CallSite} {xs : List Argument}

/-- Words that suit the plain arguments of a usage: where it asks for numbers they are numbers, or
the placeholder where that is allowed. -/
def Suits (allowX : Bool) (usage : Usage) (words : List (String × Bool)) : Prop :=
  ∀ p ∈ words.zip (plainArguments usage), p.2.kind = .numeric →
    p.1.2 = true ∨ allowX = true ∧ p.1.1 = placeholder

instance (allowX : Bool) (usage : Usage) (words : List (String × Bool)) :
    Decidable (Suits allowX usage words) :=
  decidableBAll _ _

variable {s : Checker} {op : Operator}

theorem numericIssues_eq_nil_iff {spec : ArgumentSpec} {x : Argument} :
    numericIssues s ctx spec x = [] ↔
      (spec.kind = .numeric → x.isNumber = true ∨ s.allowX = true ∧ x.text = placeholder) := by
  unfold numericIssues
  split
  · next h => simpa [or_assoc, imp_iff_not_or] using h
  · next h => simpa [or_assoc] using h

theorem suits_iff :
    ((xs.zip (plainArguments usage)).flatMap fun (x, spec) => numericIssues s ctx spec x) = [] ↔
      Suits s.allowX usage (xs.map argumentWord) := by
  rw [flatMap_eq_nil_iff]
  unfold Suits
  rw [zip_map_left]
  simp only [forall_mem_map, numericIssues_eq_nil_iff]
  rfl

/-- Plain arguments are accepted just if they suit the usage that they are held against, and
nothing is missing behind them. -/
theorem usageIssues_eq_nil_iff {hasFormula : Bool} :
    usageIssues s ctx op xs hasFormula = [] ↔
      ∃ usage, op.usageWith? xs.length hasFormula = some usage ∧
        Suits s.allowX usage (xs.map argumentWord) ∧
        (endsInFormula usage = true → hasFormula = true) := by
  unfold usageIssues
  split
  · next h =>
    obtain ⟨usage, e⟩ := op.exists_usageWith? (contains_iff_mem.1 h) hasFormula
    have formula : (if endsInFormula usage && !hasFormula then
          [operatorIssue ctx .missingBody
            ("'" ++ ctx.label ++ "' expects a formula as its last argument") ctx.span]
        else []) = [] ↔ (endsInFormula usage = true → hasFormula = true) := by
      cases endsInFormula usage <;> cases hasFormula <;> simp
    rw [e]
    rw [append_eq_nil_iff, suits_iff, formula]
    constructor
    · intro h
      exact ⟨usage, rfl, h⟩
    · rintro ⟨usage', e', h⟩
      rwa [Option.some.inj e']
  · next h =>
    constructor
    · intro e
      simp at e
    · rintro ⟨usage, e, -⟩
      obtain ⟨hmem, hcount, -⟩ := op.usageWith?_eq_some e
      exact absurd (Operator.contains_arities hmem hcount) h

/-! ## Calls -/

/-- A chain of an operator without sub-operators. -/
theorem checkOperator_own (found : s.operators.find? call.name = some op)
    (noDelegate : op.delegatesTo = none) (noSubs : op.hasSubOperators = false) :
    checkOperator s call none = styleIssues call false op ++ delimiterIssues call op ++
      targetIssues s ⟨call.name, op.name, call.span⟩ op call.arguments := by
  rw [checkOperator_chain, found]
  simp [addressee, noDelegate, noSubs, addressedIssues]

theorem delimiterIssues_eq_nil_iff :
    delimiterIssues call op = [] ↔ ∀ x ∈ call.arguments, op.Allows x.delimiter := by
  unfold delimiterIssues Operator.Allows
  rw [filterMap_eq_nil_iff]
  refine forall₂_congr fun x _ => ?_
  split
  · next h => simpa [or_assoc] using h
  · next h => simpa [or_assoc] using h

/-- No arguments form a call of their own where every usage with a formula takes as many plain
ones. -/
theorem chainLength?_eq_none
    (h : ∀ usage ∈ op.usages, endsInFormula usage = true → xs.length < usage.length) :
    chainLength? op xs none = none := by
  unfold chainLength?
  split
  · rw [max?_eq_none_iff, filter_eq_nil_iff]
    intro n hn
    obtain ⟨usage, hmem, rfl⟩ := mem_map.1 hn
    obtain ⟨hmem, hends⟩ := mem_filter.1 hmem
    have := h usage hmem hends
    simp
    omega
  · rfl

theorem chainLength?_eq_some (splits : op.Splits xs.length usage) :
    chainLength? op xs none = some (usage.length - 1) := by
  have takes : op.takesFormula = true := any_eq_true.2 ⟨usage, splits.declared, splits.formula⟩
  have positive := length_pos_of_endsInFormula splits.formula
  have short := splits.short
  rw [chainLength?, if_pos (by simp [takes]), max?_eq_some_iff]
  refine ⟨mem_filter.2 ⟨mem_map.2 ⟨usage, mem_filter.2 ⟨splits.declared, splits.formula⟩, rfl⟩,
    decide_eq_true (by omega)⟩, fun n hn => ?_⟩
  obtain ⟨hn, hlt⟩ := mem_filter.1 hn
  obtain ⟨other, hother, rfl⟩ := mem_map.1 hn
  obtain ⟨hother, hends⟩ := mem_filter.1 hother
  have := length_pos_of_endsInFormula hends
  have := splits.longest other hother hends (by have := of_decide_eq_true hlt; omega)
  omega

theorem targetIssues_split (splits : op.Splits xs.length usage) :
    targetIssues s ctx op xs = usageIssues s ctx op (xs.take (usage.length - 1)) true ++
      surplusIssues s (surplus s.operators (xs.drop (usage.length - 1))) := by
  rw [targetIssues, chainLength?_eq_some splits]

/-- Arguments that can stand for the formula at the end of a chain: a number or a name that is no
operator, alone, or a call of the first of them that is accepted. -/
inductive LeftOver (s : Checker) : List Argument → Prop
  | number {x : Argument} (number : x.isNumber = true) : LeftOver s [x]
  | name {x : Argument} (word : x.isNumber = false) (unknown : s.operators.find? x.text = none) :
      LeftOver s [x]
  | call {x : Argument} {xs : List Argument} (word : x.isNumber = false)
      (accepted : (Formula.chain ⟨x.text, x.span, xs,
        ⟨x.span.start, (xs.getLast?.map (·.span.stop)).getD x.span.stop⟩⟩).check s = []) :
      LeftOver s (x :: xs)

theorem surplusIssues_eq_nil_iff {x : Argument} :
    surplusIssues s (surplus s.operators (x :: xs)) = [] ↔ LeftOver s (x :: xs) := by
  simp only [surplus]
  cases number : x.isNumber with
  | true =>
    cases xs with
    | nil => exact ⟨fun _ => .number number, fun _ => rfl⟩
    | cons extra xs =>
      refine ⟨fun h => absurd h (cons_ne_nil _ _), fun h => ?_⟩
      cases h with
      | call word => exact absurd (word.symm.trans number) (by decide)
  | false =>
    simp only [Bool.false_eq_true, if_false]
    split
    · next alone =>
      obtain ⟨none, unknown⟩ := Bool.and_eq_true_iff.1 alone
      obtain rfl := isEmpty_iff.1 none
      exact ⟨fun _ => .name number (by simpa using unknown), fun _ => rfl⟩
    · next alone =>
      refine ⟨fun h => .call number h, fun h => ?_⟩
      cases h with
      | number number' => exact absurd (number'.symm.trans number) (by decide)
      | name word unknown => simp [unknown] at alone
      | call word accepted => exact accepted

section

variable (found : s.operators.find? call.name = some op) (chained : op.functionStyle = false)
  (noDelegate : op.delegatesTo = none) (noSubs : op.hasSubOperators = false)
  (colons : ∀ x ∈ call.arguments, x.delimiter = ':')
include found chained noDelegate noSubs colons

/-- A chain of a known operator is accepted just if its arguments are. -/
theorem check_chain_own_eq_nil_iff : (Formula.chain call).check s = [] ↔
    targetIssues s ⟨call.name, op.name, call.span⟩ op call.arguments = [] := by
  have style : styleIssues call false op = [] := by simp [styleIssues, chained]
  have delimiters : delimiterIssues call op = [] :=
    delimiterIssues_eq_nil_iff.2 fun x hx => Or.inl (colons x hx)
  rw [check, checkOperator_own found noDelegate noSubs, style, delimiters]
  rfl

/-- A chain that belongs to its operator is accepted just if it suits the first usage of its
length. -/
theorem check_chain_eq_nil_iff (declared : usage ∈ op.usages)
    (plain : ∀ a ∈ usage, a.kind ≠ .formula) (hlength : call.arguments.length = usage.length)
    (longer : ∀ other ∈ op.usages, endsInFormula other = true → usage.length < other.length) :
    (Formula.chain call).check s = [] ↔
      ∃ first, op.firstUsage? usage.length = some first ∧
        Suits s.allowX first (call.arguments.map argumentWord) := by
  obtain ⟨first, hfirst, hwith⟩ := Operator.exists_firstUsage? declared plain
  have ends : endsInFormula first = false := by
    have := find?_some hfirst
    simpa using (Bool.and_eq_true_iff.1 this).2
  rw [check_chain_own_eq_nil_iff found chained noDelegate noSubs colons, targetIssues,
    chainLength?_eq_none (hlength ▸ longer), usageIssues_eq_nil_iff, hlength, hwith, hfirst]
  simp [ends]

/-- A chain that a usage with a formula takes arguments off is accepted just if these suit the usage
that they are held against, and the others can stand for the formula. -/
theorem check_split_eq_nil_iff (splits : op.Splits call.arguments.length usage) :
    (Formula.chain call).check s = [] ↔
      (∃ first, op.usageWith? (usage.length - 1) true = some first ∧
        Suits s.allowX first ((call.arguments.take (usage.length - 1)).map argumentWord)) ∧
      LeftOver s (call.arguments.drop (usage.length - 1)) := by
  have positive := length_pos_of_endsInFormula splits.formula
  have short := splits.short
  have some : call.arguments.drop (usage.length - 1) ≠ [] := by
    rw [ne_eq, drop_eq_nil_iff]
    omega
  obtain ⟨x, xs, left⟩ := exists_cons_of_ne_nil some
  rw [check_chain_own_eq_nil_iff found chained noDelegate noSubs colons, targetIssues_split splits,
    append_eq_nil_iff, usageIssues_eq_nil_iff, left, surplusIssues_eq_nil_iff, length_take,
    Nat.min_eq_left (by omega)]
  simp

end

/-- A call that matches a declared usage is read. Where no usage with a formula takes fewer
arguments, it is accepted just if it suits the first usage of its length. Otherwise the longest of
these usages takes its arguments off the call, which is accepted just if they suit the first usage
of their number and what is left over can stand for the formula. -/
theorem declared_call_accepted_iff (s : Checker) {op : Operator} (ident : IsIdent op.name)
    (found : s.operators.find? op.name = some op) (chained : op.functionStyle = false)
    (noDelegate : op.delegatesTo = none) (noSubs : op.hasSubOperators = false) {usage : Usage}
    (declared : usage ∈ op.usages) (plain : ∀ a ∈ usage, a.kind ≠ .formula)
    (positive : 1 ≤ usage.length) {atoms : List Atom} (length : atoms.length = usage.length)
    (numbers : ∀ p ∈ atoms.zip usage, p.2.kind = .numeric → p.1.isNumber = true) :
    ∃ call : Call, parse (callText op.name atoms) = .ok (.chain call) ∧
      call.arguments.map argumentWord = atoms.map Atom.word ∧
      ((∀ other ∈ op.usages, endsInFormula other = true → usage.length < other.length) →
        (op.firstUsage? usage.length = some usage → (Formula.chain call).check s = []) ∧
        ((Formula.chain call).check s = [] ↔ ∃ first, op.firstUsage? usage.length = some first ∧
          Suits s.allowX first (atoms.map Atom.word))) ∧
      ∀ short : Usage, op.Splits usage.length short →
        ((Formula.chain call).check s = [] ↔
          (∃ first, op.usageWith? (short.length - 1) true = some first ∧
            Suits s.allowX first ((atoms.take (short.length - 1)).map Atom.word)) ∧
          LeftOver s (call.arguments.drop (short.length - 1))) := by
  have hne : atoms ≠ [] := by
    rintro rfl
    rw [← length] at positive
    simp at positive
  obtain ⟨call, parsed, hname, words, colons⟩ := parse_callText ident hne
  have hcall : call.arguments.length = usage.length := by
    rw [← length]
    simpa using congrArg List.length words
  refine ⟨call, parsed, words, fun longer => ?_, fun short splits => ?_⟩
  · have accepted := check_chain_eq_nil_iff (hname ▸ found) chained noDelegate noSubs colons
      declared plain hcall longer
    rw [words] at accepted
    refine ⟨fun first => accepted.2 ⟨usage, first, ?_⟩, accepted⟩
    intro p hp hnumeric
    rw [plainArguments_eq_self plain, zip_map_left] at hp
    obtain ⟨q, hq, rfl⟩ := mem_map.1 hp
    exact Or.inl (numbers q hq hnumeric)
  · have accepted := check_split_eq_nil_iff (hname ▸ found) chained noDelegate noSubs colons
      (hcall ▸ splits)
    rwa [map_take, words, ← map_take] at accepted

/-- An operator `f` that is written in one style and has these usages. -/
def operatorF (functionStyle : Bool) (usages : List Usage) : Operator where
  name := "f"
  aliases := []
  category := none
  functionStyle := functionStyle
  usages := usages
  alternateDelimiters := []
  delegatesTo := none
  subOperators := []

/-- A check with `f` as the only operator. -/
def checkerF (functionStyle : Bool) (usages : List Usage) : Checker :=
  ⟨Operator.table [operatorF functionStyle usages], 3, false⟩

theorem find_operatorF (functionStyle : Bool) (usages : List Usage) :
    (checkerF functionStyle usages).operators.find? "f" = some (operatorF functionStyle usages) :=
  rfl

/-- A negative number and a name, where a longer usage ends in a formula, and where one of the same
length does: the name stands for it. -/
theorem declared_call_accepted_signed :
    let plain : Usage := [⟨"n", .numeric⟩, ⟨"who", .atom⟩]
    ∃ f, parse "f: - 2:c" = .ok f ∧
      f.check (checkerF false [plain, plain ++ [⟨"then", .formula⟩]]) = [] ∧
      f.check (checkerF false [plain, [⟨"n", .numeric⟩, ⟨"then", .formula⟩]]) = [] := by
  intro plain
  have two : scan " - 2" = .ok [⟨.minus, "-", ⟨1, 2⟩⟩,
      ⟨.number ⟨0x4000000000000000⟩, "2", ⟨3, 4⟩⟩] := by decide +kernel
  have c : scan "c" = .ok [⟨.ident, "c", ⟨0, 1⟩⟩] := by decide +kernel
  have ident : IsIdent "f" := ⟨⟨.ident, "f", ⟨0, 1⟩⟩, rfl, rfl, by decide +kernel⟩
  have accepted (other : Usage) := @declared_call_accepted_iff (checkerF false [plain, other])
    (operatorF _ _) ident (find_operatorF _ _) rfl rfl rfl plain mem_cons_self (by decide)
    (by decide) [⟨" - 2", "-2", true, .negative rfl rfl two⟩, ⟨"c", "c", false, .name rfl c⟩] rfl
    (by simp [plain])
  obtain ⟨call, parsed, -, whole, -⟩ := accepted (plain ++ [⟨"then", .formula⟩])
  obtain ⟨call', parsed', words, -, splits⟩ := accepted [⟨"n", .numeric⟩, ⟨"then", .formula⟩]
  obtain rfl : call = call' := by simpa using parsed.symm.trans parsed'
  refine ⟨_, parsed, (whole (by decide)).1 rfl, ?_⟩
  obtain ⟨x, xs, arguments, -, words⟩ := map_eq_cons_iff.1 words
  obtain ⟨y, ys, rfl, hy, words⟩ := map_eq_cons_iff.1 words
  obtain rfl := map_eq_nil_iff.1 words
  obtain ⟨text, word⟩ := Prod.mk.inj hy
  have suits : Suits false [⟨"n", .numeric⟩, ⟨"then", .formula⟩] [("-2", true)] := by decide
  refine (splits _ ⟨mem_cons_of_mem _ mem_cons_self, rfl, by decide, by decide⟩).2
    ⟨⟨_, rfl, suits⟩, ?_⟩
  rw [arguments]
  exact .name word (by rw [text]; rfl)

/-- A name suits the second usage of `f`, but the first one asks for a number. Two names suit a
usage of two arguments, but one that is no more than a formula takes them both, as a call. -/
theorem later_usage_refused :
    ([⟨"s", .atom⟩] ∈ (operatorF false [[⟨"n", .numeric⟩], [⟨"s", .atom⟩]]).usages ∧
      ∃ f, parse "f:a" = .ok f ∧
        (f.check (checkerF false [[⟨"n", .numeric⟩], [⟨"s", .atom⟩]])).map (·.text) =
          ["Argument 'n' of 'f' must be a number, got 'a'"]) ∧
    ∃ f, parse "f:a:b" = .ok f ∧
      (f.check (checkerF false [[⟨"then", .formula⟩], [⟨"s", .atom⟩, ⟨"t", .atom⟩]])).map
        (·.text) = ["Unknown operator 'a'"] := by
  have parsed : parse "f:a" =
      .ok (.chain ⟨"f", ⟨0, 1⟩, [⟨"a", false, ⟨2, 3⟩, ':', 1⟩], ⟨0, 3⟩⟩) := by
    decide +kernel
  have parsed' : parse "f:a:b" = .ok (.chain ⟨"f", ⟨0, 1⟩,
      [⟨"a", false, ⟨2, 3⟩, ':', 1⟩, ⟨"b", false, ⟨4, 5⟩, ':', 3⟩], ⟨0, 5⟩⟩) := by
    decide +kernel
  refine ⟨⟨by decide, _, parsed, ?_⟩, _, parsed', ?_⟩
  · rw [check, checkOperator_own (find_operatorF _ _) rfl rfl, targetIssues,
      chainLength?_eq_none (by decide), usageIssues, if_pos]
    · decide +kernel
    · exact Operator.contains_arities mem_cons_self rfl
  · rw [check, checkOperator_own (find_operatorF _ _) rfl rfl,
      targetIssues_split ⟨mem_cons_self, rfl, by decide, by decide⟩, usageIssues, if_pos]
    · decide +kernel
    · exact Operator.contains_arities mem_cons_self rfl

theorem check_applied_own {body : Formula} {bodySpan : CharRange}
    (found : s.operators.find? call.name = some op) (noDelegate : op.delegatesTo = none)
    (noSubs : op.hasSubOperators = false) (takes : op.takesFormula = true) :
    (Formula.applied call body bodySpan).check s =
      styleIssues call true op ++ delimiterIssues call op ++
        (usageIssues s ⟨call.name, op.name, call.span⟩ op call.arguments true ++ body.check s) := by
  rw [check, checkOperator_applied, found]
  simp [addressee, noDelegate, noSubs, appliedIssues, takes]

/-- An accepted call with a body suits a usage with as many plain arguments; it ends in a formula
unless none of these usages does. -/
theorem accepted_body_usage (s : Checker) {op : Operator} {call : Call} {body : Formula}
    {bodySpan : CharRange} (found : s.operators.find? call.name = some op)
    (noDelegate : op.delegatesTo = none) (noSubs : op.hasSubOperators = false)
    (takes : op.takesFormula = true)
    (accepted : (Formula.applied call body bodySpan).check s = []) :
    ∃ usage ∈ op.usages, (plainArguments usage).length = call.arguments.length ∧
      Suits s.allowX usage (call.arguments.map argumentWord) ∧
      (endsInFormula usage = true ∨ ∀ other ∈ op.usages,
        (plainArguments other).length = call.arguments.length → endsInFormula other = false) := by
  rw [check_applied_own found noDelegate noSubs takes] at accepted
  simp only [append_eq_nil_iff] at accepted
  obtain ⟨-, usages, -⟩ := accepted
  obtain ⟨usage, e, suits, -⟩ := usageIssues_eq_nil_iff.1 usages
  obtain ⟨hmem, hcount, formula⟩ := op.usageWith?_eq_some e
  refine ⟨usage, hmem, hcount, suits, formula.imp_right fun h other hother hc => ?_⟩
  simpa using h other hother hc

/-- One argument and a body, where the usage with a formula is not the first of its length. -/
theorem accepted_body_usage_second :
    ∃ call body span, parse "f:1(x)" = .ok (.applied call body span) ∧
      (Formula.applied call body span).check
        (checkerF true [[⟨"n", .numeric⟩], [⟨"n", .numeric⟩, ⟨"then", .formula⟩]]) = [] ∧
      ∃ usage ∈ [[⟨"n", .numeric⟩], [⟨"n", .numeric⟩, ⟨"then", .formula⟩]],
        (plainArguments usage).length = call.arguments.length ∧ endsInFormula usage = true := by
  have parsed : parse "f:1(x)" =
      .ok (.applied ⟨"f", ⟨0, 1⟩, [⟨"1", true, ⟨2, 3⟩, ':', 1⟩], ⟨0, 6⟩⟩
        (.variable "x" ⟨4, 5⟩) ⟨3, 6⟩) := by
    decide +kernel
  have accepted : (Formula.applied ⟨"f", ⟨0, 1⟩, [⟨"1", true, ⟨2, 3⟩, ':', 1⟩], ⟨0, 6⟩⟩
      (.variable "x" ⟨4, 5⟩) ⟨3, 6⟩).check
        (checkerF true [[⟨"n", .numeric⟩], [⟨"n", .numeric⟩, ⟨"then", .formula⟩]]) = [] := by
    rw [check_applied_own (find_operatorF _ _) rfl rfl rfl, usageIssues, if_pos]
    · decide +kernel
    · exact Operator.contains_arities mem_cons_self rfl
  obtain ⟨usage, declared, count, -, formula | none⟩ :=
    accepted_body_usage _ (find_operatorF _ _) rfl rfl rfl accepted
  · exact ⟨_, _, _, parsed, accepted, usage, declared, count, formula⟩
  · exact absurd (none [⟨"n", .numeric⟩, ⟨"then", .formula⟩] (by decide) rfl) (by decide)

/-- Two arguments and a body pass for a usage with two arguments and no formula. -/
theorem body_without_formula_accepted :
    ∃ call body span, parse "f:1:2(3)" = .ok (.applied call body span) ∧
      call.arguments.length = 2 ∧
      (Formula.applied call body span).check (checkerF true
        [[⟨"n", .numeric⟩, ⟨"then", .formula⟩], [⟨"n", .numeric⟩, ⟨"m", .numeric⟩]]) = [] ∧
      ∀ usage ∈ [[⟨"n", .numeric⟩, ⟨"then", .formula⟩], [⟨"n", .numeric⟩, ⟨"m", .numeric⟩]],
        (plainArguments usage).length = 2 → endsInFormula usage = false := by
  have parsed : parse "f:1:2(3)" =
      .ok (.applied ⟨"f", ⟨0, 1⟩, [⟨"1", true, ⟨2, 3⟩, ':', 1⟩, ⟨"2", true, ⟨4, 5⟩, ':', 3⟩],
        ⟨0, 8⟩⟩ (.literal ⟨0x4008000000000000⟩ ⟨6, 7⟩) ⟨5, 8⟩) := by
    decide +kernel
  refine ⟨_, _, _, parsed, rfl, ?_, by decide⟩
  rw [check_applied_own (find_operatorF _ _) rfl rfl rfl, usageIssues, if_pos]
  · decide +kernel
  · exact Operator.contains_arities (mem_cons_of_mem _ mem_cons_self) rfl

end Formula

end ModCheck
