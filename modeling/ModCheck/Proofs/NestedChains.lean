import ModCheck.Proofs.CallUsages
import ModCheck.Proofs.FormulaRewriting

/-
  A chain behind the arguments of another, `name:a:b:inner:c`. The text is read as one flat chain
  (`parse_nested`), in which the inner call is found again among the arguments left over, with all
  its parts further on. So what is reported about it is what is reported about the inner chain on
  its own, and before that whatever the outer operator has against the signs between the arguments
  of the inner one: those signs are held against both operators.
-/

namespace ModCheck

open List

variable {call : Call}

/-! ## Chains with arguments -/

/-- A chain goes from its name to the last of its arguments. -/
structure Call.Closed (call : Call) : Prop where
  nonempty : call.arguments ≠ []
  span : call.span =
    ⟨call.nameSpan.start, (call.arguments.getLast?.map (·.span.stop)).getD call.nameSpan.stop⟩

/-- A call as arguments of a chain: its name behind a colon at `offset`, and its arguments. -/
def Call.flat (call : Call) (offset : Nat) : List Argument :=
  ⟨call.name, false, call.nameSpan, ':', offset⟩ :: call.arguments

/-- Among the arguments left over, the call is found again. -/
theorem Call.Closed.surplus_flat (h : call.Closed) (operators : NameTable Operator) (offset : Nat) :
    Formula.surplus operators (call.flat offset) = .call call := by
  obtain ⟨nonempty, span⟩ := h
  obtain ⟨name, nameSpan, xs, all⟩ := call
  simp only [Call.flat, Formula.surplus, isEmpty_eq_false_iff.2 nonempty] at *
  simp [span]

theorem Call.Closed.move (h : call.Closed) (m : Relocation) : (call.move m).Closed := by
  obtain ⟨nonempty, span⟩ := h
  refine ⟨by simpa [Call.move] using nonempty, ?_⟩
  obtain ⟨last, hlast⟩ := Option.isSome_iff_exists.1 (getLast?_isSome.2 nonempty)
  simp [Call.move, span, hlast, CharRange.move, Argument.move]

namespace Formula

/-! ## One text behind the other -/

theorem ArgumentsWritten.append {xs ys : List Argument} {ts us : List Token}
    (h : ArgumentsWritten xs ts) (h' : ArgumentsWritten ys us) :
    ArgumentsWritten (xs ++ ys) (ts ++ us) := by
  induction h with
  | nil => exact h'
  | cons first _ ih =>
    rw [append_assoc]
    exact .cons first ih

/-- A chain with arguments, written `n` characters further on and behind a colon, makes up
arguments. -/
theorem Written.flat {ts : List Token} (h : Written .sum (.chain call) ts)
    (hne : call.arguments ≠ []) {d : Token} (colon : d.kind = .colon) (n : Nat) :
    call.Closed ∧
      ArgumentsWritten ((call.move (.shift n)).flat d.span.start) (d :: ts.map (·.shift n)) := by
  cases h with
  | ofBelow _ part =>
    cases part with
    | ofBelow _ part =>
      cases part with
      | @chain t _ _ _ kind chain called =>
        cases chain with
        | absent => exact absurd rfl hne
        | bare colon => exact absurd rfl hne
        | full _ written =>
          have head := ArgumentWritten.name (d := d) (t := t.shift n) (c := ':')
            (by simp [delimiter?, colon]) kind
          exact ⟨⟨hne, by simp⟩, .cons head (written.mapPos (· + n))⟩
      | ofBelow operand => exact absurd rfl operand

/-! ## Reading the whole -/

/-- The characters before the inner chain. -/
def before (name : String) (atoms : List Atom) : Nat :=
  (callText name atoms).toList.length + 1

/-- A chain behind the arguments of another is read as one flat chain. -/
theorem parse_nested {name : String} (ident : IsIdent name) (atoms : List Atom) {g : String}
    (parsed : parse g = .ok (.chain call)) (hne : call.arguments ≠ []) :
    call.Closed ∧ ∃ outer xs offset,
      parse (callText name atoms ++ ":" ++ g) = .ok (.chain outer) ∧ outer.name = name ∧
      outer.arguments = xs ++ (call.move (.shift (before name atoms))).flat offset ∧
      xs.map argumentWord = atoms.map Atom.word ∧ ∀ x ∈ xs, x.delimiter = ':' := by
  obtain ⟨us, scannedG, writtenG, -⟩ := parse_written parsed
  have colon : (signToken .colon (callText name atoms).toList.length).kind = .colon := rfl
  obtain ⟨closed, inner⟩ := writtenG.flat hne colon (before name atoms)
  have behind := (scans_iff.1 scannedG).shift (before name atoms)
  rw [Nat.zero_add] at behind
  have joined {ts : List Token} (scanned : scan (callText name atoms) = .ok ts) :
      scan (callText name atoms ++ ":" ++ g) =
        .ok (ts ++ signToken .colon (callText name atoms).toList.length ::
          us.map (·.shift (before name atoms))) := by
    have := scans_iff.2 ((scans_iff.1 scanned).append_colon (Nat.zero_add _).symm behind)
    simpa [scan] using this
  refine ⟨closed, ?_⟩
  cases atoms with
  | nil =>
    obtain ⟨t, kind, rfl, scanned⟩ := ident
    have alone : callText t.text [] = t.text := by simp [callText]
    obtain ⟨outer, parsed', hname, arguments⟩ :=
      parse_chain (joined (alone.symm ▸ scanned)) kind colon inner
    exact ⟨outer, [], _, parsed', hname, arguments, rfl, by simp⟩
  | cons a atoms =>
    obtain ⟨t, d, ts, xs, scanned, kind, rfl, colon', written, words, colons⟩ :=
      scan_callText ident a atoms
    obtain ⟨outer, parsed', hname, arguments⟩ :=
      parse_chain (joined scanned) kind colon' (written.append inner)
    exact ⟨outer, xs, _, parsed', hname, arguments, words, colons⟩

/-! ## The outer operator -/

/-- Calls of the operator are chains of its own `plain` arguments and then a formula. -/
structure Wraps (op : Operator) (plain : Usage) (last : ArgumentSpec) : Prop where
  chained : op.functionStyle = false
  noDelegate : op.delegatesTo = none
  noSubs : op.hasSubOperators = false
  only : op.usages = [plain ++ [last]]
  isPlain : ∀ a ∈ plain, a.kind ≠ .formula
  isFormula : last.kind = .formula

section Wraps

variable {s : Checker} {op : Operator} {plain : Usage} {last : ArgumentSpec}
  (h : Wraps op plain last)
include h

theorem Wraps.endsInFormula : endsInFormula (plain ++ [last]) = true := by
  simp [ModCheck.endsInFormula, h.isFormula]

theorem Wraps.plainArguments : plainArguments (plain ++ [last]) = plain := by
  have : ModCheck.plainArguments [last] = [] := by simp [ModCheck.plainArguments, h.isFormula]
  rw [ModCheck.plainArguments, filter_append]
  exact (congrArg₂ _ (plainArguments_eq_self h.isPlain) this).trans (append_nil plain)

/-- Its own arguments are the plain ones. -/
theorem Wraps.splits {count : Nat} (more : plain.length < count) :
    op.Splits count (plain ++ [last]) := by
  refine ⟨by simp [h.only], h.endsInFormula, by simpa [Nat.succ_le_iff] using more,
    fun other hother _ _ => ?_⟩
  rw [h.only] at hother
  rw [mem_singleton.1 hother]

theorem Wraps.usageIssues_eq_nil {ctx : CallSite} {xs : List Argument}
    (length : xs.length = plain.length)
    (suits : Suits s.allowX (plain ++ [last]) (xs.map argumentWord)) :
    usageIssues s ctx op xs true = [] := by
  refine usageIssues_eq_nil_iff.2 ⟨plain ++ [last], ?_, suits, fun _ => rfl⟩
  simp [Operator.usageWith?, h.only, h.plainArguments, h.endsInFormula, length]

/-- What is reported about a call inside the call of `op`. -/
theorem Wraps.checkOperator_flat {outer call : Call} {xs : List Argument} {offset : Nat}
    (found : s.operators.find? outer.name = some op) (closed : call.Closed)
    (arguments : outer.arguments = xs ++ call.flat offset) (length : xs.length = plain.length)
    (colons : ∀ x ∈ xs, x.delimiter = ':')
    (suits : Suits s.allowX (plain ++ [last]) (xs.map argumentWord)) :
    checkOperator s outer none =
      delimiterIssues { call with name := outer.name } op ++ checkOperator s call none := by
  have style : styleIssues outer false op = [] := by simp [styleIssues, h.chained]
  have delimiters : delimiterIssues outer op =
      delimiterIssues { call with name := outer.name } op := by
    have own : delimiterIssues { outer with arguments := xs } op = [] :=
      delimiterIssues_eq_nil_iff.2 fun x hx => Or.inl (colons x hx)
    unfold delimiterIssues at own ⊢
    rw [arguments, filterMap_append, own]
    simp [Call.flat]
  have more : plain.length < outer.arguments.length := by
    rw [arguments, length_append, Call.flat, length_cons]
    omega
  rw [checkOperator_own found h.noDelegate h.noSubs, style, delimiters,
    targetIssues_split (h.splits more), arguments, length_append, length_singleton,
    Nat.add_sub_cancel, ← length, take_left, drop_left, h.usageIssues_eq_nil length suits,
    closed.surplus_flat]
  rfl

end Wraps

/-- A chain behind the arguments of another is read, and the issues are those of the chain alone,
further on, behind what the outer operator has against its delimiters. They are no more than that
just if the outer operator allows them all. -/
theorem nested_chain_issues (s : Checker) {op : Operator} {name : String} (ident : IsIdent name)
    (found : s.operators.find? name = some op) {plain : Usage} {last : ArgumentSpec}
    (wraps : Wraps op plain last) {atoms : List Atom} (length : atoms.length = plain.length)
    (suits : Suits s.allowX (plain ++ [last]) (atoms.map Atom.word)) {g : String} {call : Call}
    (parsed : parse g = .ok (.chain call)) (nonempty : call.arguments ≠ []) :
    ∃ f, parse (callText name atoms ++ ":" ++ g) = .ok f ∧
      f.check s = (delimiterIssues { call with name } op ++ (Formula.chain call).check s).map
        (·.shift (before name atoms)) ∧
      (f.check s = ((Formula.chain call).check s).map (·.shift (before name atoms)) ↔
        ∀ x ∈ call.arguments, op.Allows x.delimiter) := by
  obtain ⟨closed, outer, xs, offset, parsed', rfl, arguments, words, colons⟩ :=
    parse_nested ident atoms parsed nonempty
  have hxs : xs.length = plain.length := by
    rw [← length]
    simpa using congrArg List.length words
  have issues : (Formula.chain outer).check s =
      (delimiterIssues { call with name := outer.name } op ++ (Formula.chain call).check s).map
        (·.shift (before outer.name atoms)) := by
    rw [check, check, wraps.checkOperator_flat found (closed.move _) arguments hxs colons
      (words ▸ suits), checkOperator_move, map_append]
    congr 1
    exact delimiterIssues_move _ { call with name := outer.name } op
  refine ⟨_, parsed', issues, ?_⟩
  rw [issues, map_append, append_left_eq_self, map_eq_nil_iff,
    delimiterIssues_eq_nil_iff]

/-- A chain operator with one usage and one more delimiter, or none. -/
def chainOperator (name : String) (delimiters : List String) (usage : Usage) : Operator where
  name := name
  aliases := []
  category := none
  functionStyle := false
  usages := [usage]
  alternateDelimiters := delimiters
  delegatesTo := none
  subOperators := []

/-- `repeat` takes a number and a formula. -/
def repeatOperator : Operator :=
  chainOperator "repeat" [] ([⟨"times", .numeric⟩] ++ [⟨"body", .formula⟩])

/-- `between` takes two numbers, which a comma may separate. -/
def betweenOperator : Operator :=
  chainOperator "between" [","] [⟨"min", .numeric⟩, ⟨"max", .numeric⟩]

def repeatChecker : Checker :=
  ⟨Operator.table [repeatOperator, betweenOperator], 3, false⟩

theorem wraps_repeat : Wraps repeatOperator [⟨"times", .numeric⟩] ⟨"body", .formula⟩ where
  chained := rfl
  noDelegate := rfl
  noSubs := rfl
  only := rfl
  isPlain := by decide
  isFormula := rfl

theorem isIdent_repeat : IsIdent "repeat" :=
  ⟨⟨.ident, "repeat", ⟨0, 6⟩⟩, rfl, rfl, by decide +kernel⟩

theorem check_between (nameSpan span : CharRange) (x y : Argument) :
    (Formula.chain ⟨"between", nameSpan, [x, y], span⟩).check repeatChecker =
      delimiterIssues ⟨"between", nameSpan, [x, y], span⟩ betweenOperator ++
        (numericIssues repeatChecker ⟨"between", "between", span⟩ ⟨"min", .numeric⟩ x ++
          numericIssues repeatChecker ⟨"between", "between", span⟩ ⟨"max", .numeric⟩ y) := by
  have found : repeatChecker.operators.find? "between" = some betweenOperator := rfl
  have arity : betweenOperator.arities.contains 2 = true :=
    Operator.contains_arities mem_cons_self rfl
  have whole : chainLength? betweenOperator [x, y] none = none := rfl
  rw [check, checkOperator_own found rfl rfl, targetIssues, whole, usageIssues]
  dsimp only [length_cons, length_nil]
  rw [if_pos arity]
  simp [styleIssues, betweenOperator, chainOperator, Operator.usageWith?, ModCheck.plainArguments,
    ModCheck.endsInFormula]

/-- The number before the inner chain. -/
def two : Atom :=
  ⟨"2", "2", true,
    .number (t := ⟨.number ⟨0x4000000000000000⟩, "2", ⟨0, 1⟩⟩) rfl (by decide +kernel)⟩

theorem suits_two :
    Suits false ([⟨"times", .numeric⟩] ++ [⟨"body", .formula⟩]) ([two].map Atom.word) := by
  simp [Suits, ModCheck.plainArguments, two, Atom.word]

/-- The issue of an inner chain with a wrong argument, behind `repeat:2`. -/
theorem nested_chain_issues_between :
    ∃ f, parse "repeat:2:between:a:5" = .ok f ∧
      (f.check repeatChecker).map (fun i => (i.text, i.range)) =
        [("Argument 'min' of 'between' must be a number, got 'a'", ⟨17, 18⟩)] := by
  have parsed : parse "between:a:5" = .ok (.chain ⟨"between", ⟨0, 7⟩,
      [⟨"a", false, ⟨8, 9⟩, ':', 7⟩, ⟨"5", true, ⟨10, 11⟩, ':', 9⟩], ⟨0, 11⟩⟩) := by
    decide +kernel
  obtain ⟨f, parsed', -, same⟩ :=
    nested_chain_issues repeatChecker isIdent_repeat rfl wraps_repeat rfl suits_two parsed (by simp)
  refine ⟨f, parsed', ?_⟩
  rw [same.2 (by simp [Operator.Allows]), check_between]
  decide +kernel

/-- The comma is right for `between`, and is held against `repeat` as well. -/
theorem inner_delimiter_refused :
    ∃ inner outer, parse "between:1,5" = .ok inner ∧ inner.check repeatChecker = [] ∧
      parse "repeat:2:between:1,5" = .ok outer ∧
      (outer.check repeatChecker).map (fun i => (i.text, i.range)) =
        [("'repeat' does not accept ',' between arguments", ⟨18, 19⟩)] := by
  have parsed : parse "between:1,5" = .ok (.chain ⟨"between", ⟨0, 7⟩,
      [⟨"1", true, ⟨8, 9⟩, ':', 7⟩, ⟨"5", true, ⟨10, 11⟩, ',', 9⟩], ⟨0, 11⟩⟩) := by
    decide +kernel
  have accepted : (Formula.chain ⟨"between", ⟨0, 7⟩,
      [⟨"1", true, ⟨8, 9⟩, ':', 7⟩, ⟨"5", true, ⟨10, 11⟩, ',', 9⟩], ⟨0, 11⟩⟩).check
        repeatChecker = [] := by
    rw [check_between]
    decide +kernel
  obtain ⟨closed, outer, xs, offset, parsed', hname, arguments, words, colons⟩ :=
    parse_nested isIdent_repeat [two] parsed (by simp)
  have found : repeatChecker.operators.find? outer.name = some repeatOperator := by
    rw [hname]
    rfl
  have length : xs.length = 1 := by simpa using congrArg List.length words
  refine ⟨_, _, parsed, accepted, parsed', ?_⟩
  rw [check, wraps_repeat.checkOperator_flat found (closed.move _) arguments length colons
    (words ▸ suits_two), checkOperator_move, ← check, accepted, hname]
  decide +kernel

end Formula

end ModCheck
