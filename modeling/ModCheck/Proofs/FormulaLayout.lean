import ModCheck.Proofs.FormulaRewriting
import ModCheck.Proofs.MovedCalls

/-
  Formulas with other blanks. Blanks that are written between the tokens of a text move its
  characters (`spread`, `Relocation.spread`) and nothing else: the tokens are found elsewhere
  (`Scans.spread`), the readers never look at where a token stands but to say where its part
  does (`run_move`), and neither does the check (`check_move`). Main statement:
  `layout_irrelevant`.
-/

namespace ModCheck

open List

namespace Formula

/-! ## Blanks between characters -/

section

variable (blanks : Nat → List Char)

/-- A text from character `n` on, with `blanks k` written before its character `k`. -/
def spread (n : Nat) : List Char → List Char
  | [] => blanks n
  | c :: cs => blanks n ++ c :: spread (n + 1) cs

/-- How many blanks are written before character `n`, without those right before it. -/
def inserted : Nat → Nat
  | 0 => 0
  | n + 1 => inserted n + (blanks n).length

end

end Formula

/-- Where the characters of a text stand when blanks are written between them. A part starts behind
the blanks before it and stops before those behind it. -/
def Relocation.spread (blanks : Nat → List Char) : Relocation where
  start n := n + Formula.inserted blanks (n + 1)
  stop n := n + Formula.inserted blanks n
  sign n := by omega

namespace Formula

open Text (isBlank)

variable {blanks : Nat → List Char} {t : Token} {ts : List Token}

theorem length_spread (n : Nat) (cs : List Char) :
    inserted blanks n + (spread blanks n cs).length =
      cs.length + inserted blanks (n + cs.length + 1) := by
  induction cs generalizing n with
  | nil => rw [spread, length_nil, Nat.zero_add, inserted]
  | cons c cs ih =>
    have := ih (n + 1)
    rw [inserted, Nat.add_right_comm n 1] at this
    rw [spread, length_append, length_cons, length_cons, ← Nat.add_assoc n]
    omega

theorem inserted_eq {a b : Nat} (le : a ≤ b) (none : ∀ i, a ≤ i → i < b → blanks i = []) :
    inserted blanks b = inserted blanks a := by
  induction b with
  | zero => rw [Nat.le_zero.1 le]
  | succ b ih =>
    rcases Nat.lt_or_eq_of_le le with lt | rfl
    · have := ih (Nat.lt_succ_iff.1 lt) fun i hi hb => none i hi (Nat.lt_succ_of_lt hb)
      rw [inserted, none b (Nat.lt_succ_iff.1 lt) (Nat.lt_succ_self b), this]
      rfl
    · rfl

theorem spread_append {n : Nat} {cs : List Char}
    (none : ∀ i, n ≤ i → i < n + cs.length → blanks i = []) (ds : List Char) :
    spread blanks n (cs ++ ds) = cs ++ spread blanks (n + cs.length) ds := by
  induction cs generalizing n with
  | nil => rfl
  | cons c cs ih =>
    have here : blanks n = [] := none n (Nat.le_refl n) (by simp)
    have others : ∀ i, n + 1 ≤ i → i < n + 1 + cs.length → blanks i = [] := by
      intro i low high
      refine none i (Nat.le_of_succ_le low) ?_
      rw [length_cons]
      omega
    have more := ih others
    rw [cons_append, spread, here, nil_append, more, length_cons, cons_append,
      Nat.add_right_comm, Nat.add_assoc]

/-- Blanks to be written between the tokens of a text. -/
structure Gaps (blanks : Nat → List Char) (ts : List Token) : Prop where
  blank : ∀ i, ∀ c ∈ blanks i, isBlank c = true
  outside : ∀ i, blanks i ≠ [] → ∀ t ∈ ts, i ≤ t.span.start ∨ t.span.stop ≤ i

theorem Gaps.tail (h : Gaps blanks (t :: ts)) : Gaps blanks ts :=
  ⟨h.blank, fun i given u hu => h.outside i given u (mem_cons_of_mem t hu)⟩

theorem Gaps.eq_nil (h : Gaps blanks (t :: ts)) {i : Nat} (start : t.span.start < i)
    (stop : i < t.span.stop) : blanks i = [] := by
  by_contra given
  have := h.outside i given t mem_cons_self
  omega

/-- Characters that are not blank and stand next to each other stood so before. -/
theorem leads_of_leads_spread (blank : ∀ i, ∀ c ∈ blanks i, isBlank c = true) {n : Nat}
    {cs ds : List Char} (visible : ∀ c ∈ ds, isBlank c = false) (h : ds <+: spread blanks n cs) :
    ds <+: cs := by
  induction cs generalizing n ds with
  | nil =>
    cases ds with
    | nil => exact nil_prefix
    | cons d ds =>
      have := blank n d (h.subset mem_cons_self)
      simp [visible d mem_cons_self] at this
  | cons c cs ih =>
    cases ds with
    | nil => exact nil_prefix
    | cons d ds =>
      obtain ⟨here, behind⟩ := forall_mem_cons.1 visible
      rw [spread] at h
      cases e : blanks n with
      | nil =>
        rw [e] at h
        obtain ⟨rfl, more⟩ := cons_prefix_cons.1 h
        exact cons_prefix_cons.2 ⟨rfl, ih behind more⟩
      | cons b bs =>
        rw [e] at h
        obtain ⟨rfl, -⟩ := cons_prefix_cons.1 h
        have := blank n d (e ▸ mem_cons_self)
        simp [here] at this

/-- No longer token appears behind the blanks. -/
theorem LongestToken.of_spread {kind : TokenKind} {text rest : List Char}
    (h : LongestToken kind text (text ++ rest)) (blank : ∀ i, ∀ c ∈ blanks i, isBlank c = true)
    (n : Nat) : LongestToken kind text (text ++ spread blanks n rest) := by
  refine ⟨h.token, prefix_append _ _, fun kind' text' token leads =>
    h.longest kind' text' token ?_⟩
  rcases prefix_or_prefix_of_prefix leads (prefix_append text _) with short | ⟨more, rfl⟩
  · exact short.trans (prefix_append _ _)
  · rw [prefix_append_right_inj] at leads ⊢
    refine leads_of_leads_spread blank (fun c hc => ?_) leads
    exact (token.isTokenChar c (mem_append_right _ hc)).visible

def Token.move (m : Relocation) (t : Token) : Token :=
  { t with span := t.span.move m }

/-- The tokens of a text are found again behind the blanks. -/
theorem Scans.spread {pos : Nat} {cs : List Char} (h : Scans pos cs ts) (gaps : Gaps blanks ts) :
    Scans ((Relocation.spread blanks).stop pos) (Formula.spread blanks pos cs)
      (ts.map (·.move (.spread blanks))) := by
  have behind (pos : Nat) : (Relocation.spread blanks).stop pos + (blanks pos).length =
      (Relocation.spread blanks).start pos := by
    simp only [Relocation.spread, inserted]
    omega
  induction h with
  | @done pos => simpa [Formula.spread] using Scans.blanks_append (gaps.blank pos) .done
  | @blank pos c cs ts hb more ih =>
    have next := ih gaps
    rw [(Relocation.spread blanks).sign] at next
    refine .blanks_append (gaps.blank pos) ?_
    rw [behind]
    exact .blank hb next
  | @token pos kind text rest ts longest more ih =>
    obtain ⟨d, ds, rfl⟩ := exists_cons_of_ne_nil longest.token.ne_nil
    have len : pos + (d :: ds).length = pos + 1 + ds.length := by
      rw [length_cons]
      omega
    rw [len] at ih gaps ⊢
    -- nothing is written inside the token
    have none : ∀ i, pos + 1 ≤ i → i < pos + 1 + ds.length → blanks i = [] :=
      fun i low high => gaps.eq_nil low high
    have stop : (Relocation.spread blanks).start pos + (d :: ds).length =
        (Relocation.spread blanks).stop (pos + 1 + ds.length) := by
      have := inserted_eq (Nat.le_add_right (pos + 1) ds.length) none
      simp only [Relocation.spread]
      omega
    have next := ih gaps.tail
    rw [← stop] at next
    have token := Scans.token (longest.of_spread gaps.blank (pos + 1 + ds.length)) next
    rw [stop] at token
    rw [cons_append, Formula.spread, spread_append none rest]
    refine .blanks_append (gaps.blank pos) ?_
    rw [behind]
    exact token

/-! ## Reading elsewhere -/

section

variable (m : Relocation)

def Fault.move : Fault → Fault
  | .empty => .empty
  | .unexpectedChar c offset => .unexpectedChar c (m.start offset)
  | .invalidNumber text offset => .invalidNumber text (m.start offset)
  | .unexpectedToken text offset => .unexpectedToken text (m.start offset)
  | .unexpectedEnd offset => .unexpectedEnd (m.start offset)
  | .unaryPlus offset => .unaryPlus (m.start offset)
  | .grouping offset => .grouping (m.start offset)
  | .missingArgument delimiter offset => .missingArgument delimiter (m.start offset)
  | .unclosedParenthesis offset => .unclosedParenthesis (m.start offset)

/-- A formula that stands elsewhere. -/
def move : Formula → Formula :=
  mapCalls (·.move m) (·.move m)

theorem span_move (f : Formula) : (f.move m).span = f.span.move m := by
  cases f <;> rfl

theorem join_move (op : BinaryOperator) (left right : Formula) :
    (join op left right).move m = join op (left.move m) (right.move m) := by
  unfold join
  rw [span_move, span_move]
  rfl

/-- What is read elsewhere: the same fault, or the same part and the same tokens left. -/
def moved {α : Type} (move : α → α) (read : Read α) : Read α :=
  (read.map fun found => (move found.1, found.2.map (·.move m))).mapError (·.move m)

variable {m} in
theorem moved_andThen {α β : Type} {moveFirst : α → α} {move : β → β} {first : Read α}
    {more more' : α → List Token → Read β}
    (same : ∀ x ts, first = .ok (x, ts) →
      more' (moveFirst x) (ts.map (·.move m)) = moved m move (more x ts)) :
    andThen (moved m moveFirst first) more' = moved m move (andThen first more) := by
  rcases first with fault | ⟨x, ts⟩
  · rfl
  · exact same x ts rfl

def Reader.move : Reader → Reader
  | .part level => .part level
  | .rest level left => .rest level (left.move m)
  | .call name => .call (name.move m)

end

section

variable (m : Relocation) (stop : Nat)

theorem readAtom_move (delimiter : Char) (offset : Nat) (ts : List Token) :
    plain (readAtom (m.start stop) delimiter (m.start offset) (ts.map (·.move m))) =
      moved m (·.move m) (plain (readAtom stop delimiter offset ts)) := by
  cases ts with
  | nil => rfl
  | cons t ts =>
    have kind : (t.move m).kind = t.kind := rfl
    rw [map_cons, readAtom.eq_def, readAtom.eq_def]
    simp only [kind]
    cases t.kind with
    | minus =>
      cases ts with
      | nil => rfl
      | cons n rest =>
        have kind : (n.move m).kind = n.kind := rfl
        rw [map_cons]
        dsimp only
        rw [kind]
        cases n.kind <;> rfl
    | _ => rfl

theorem readAtoms_move (ts : List Token) :
    plain (readAtoms (m.start stop) (ts.map (·.move m))) =
      moved m (List.map (·.move m)) (plain (readAtoms stop ts)) := by
  cases ts with
  | nil =>
    rw [map_nil, readAtoms, readAtoms]
    rfl
  | cons t ts =>
    have sign : delimiter? (t.move m) = delimiter? t := rfl
    have offset : (t.move m).span.start = m.start t.span.start := rfl
    rw [map_cons, plain_readAtoms_cons, plain_readAtoms_cons, sign, offset]
    cases delimiter? t with
    | none => rfl
    | some c =>
      dsimp only
      rw [readAtom_move]
      refine moved_andThen fun x us read => ?_
      obtain ⟨fewer, -⟩ := eq_ok_of_plain read
      have : us.length < (t :: ts).length := Nat.lt_succ_of_lt fewer
      rw [readAtoms_move us]
      exact moved_andThen fun xs vs _ => rfl
termination_by ts.length

theorem endsChain_move (ts : List Token) : endsChain (ts.map (·.move m)) = endsChain ts := by
  cases ts <;> rfl

theorem startsCall_move (ts : List Token) : startsCall (ts.map (·.move m)) = startsCall ts := by
  cases ts <;> rfl

theorem readChain_move (nameEnd : Nat) (ts : List Token) :
    plain (readChain (m.start stop) (m.stop nameEnd) (ts.map (·.move m))) =
      moved m (fun chain => (chain.1.map (·.move m), m.stop chain.2))
        (plain (readChain stop nameEnd ts)) := by
  cases ts with
  | nil => rfl
  | cons t ts =>
    have kind : (t.move m).kind = t.kind := rfl
    have colonEnd : (t.move m).span.stop = m.stop t.span.stop := rfl
    have atoms := readAtoms_move m stop (t :: ts)
    rw [map_cons] at atoms ⊢
    rw [plain_readChain_cons, plain_readChain_cons, kind, endsChain_move, colonEnd, atoms]
    by_cases colon : t.kind = .colon
    · rw [if_pos colon, if_pos colon]
      by_cases ends : endsChain ts = true
      · rw [if_pos ends, if_pos ends]
        rfl
      · rw [if_neg ends, if_neg ends]
        refine moved_andThen fun xs us _ => ?_
        rw [lastStop_move]
        rfl
    · rw [if_neg colon, if_neg colon]
      rfl

/-- The body of a call is read alike if the formula in it is. -/
theorem readBody_move {name : Token} {chain : List Argument × Nat}
    (inner : ∀ t us, ts = t :: us → (Reader.part .sum).run (m.start stop) (us.map (·.move m)) =
      moved m (·.move m) ((Reader.part .sum).run stop us)) :
    readBody (m.start stop) (name.move m) (chain.1.map (·.move m)) (m.stop chain.2)
        (ts.map (·.move m)) =
      moved m (·.move m) (readBody stop name chain.1 chain.2 ts) := by
  cases ts with
  | nil => rfl
  | cons t us =>
    have kind : (t.move m).kind = t.kind := rfl
    rw [map_cons, readBody, readBody, kind, inner t us rfl]
    by_cases opens : t.kind = .leftParen
    · rw [if_pos opens, if_pos opens]
      refine moved_andThen fun f vs _ => ?_
      cases vs with
      | nil => rfl
      | cons close vs =>
        have kind : (close.move m).kind = close.kind := rfl
        rw [map_cons]
        dsimp only
        rw [kind]
        split <;> rfl
    · rw [if_neg opens, if_neg opens]
      rfl

/-- The readers look at where a token stands only to say where its part does. -/
theorem run_move (reader : Reader) (ts : List Token) :
    (reader.move m).run (m.start stop) (ts.map (·.move m)) =
      moved m (·.move m) (reader.run stop ts) := by
  induction reader, ts using Reader.induct stop with
  | part level ts upper first more =>
    have first : (Reader.part level.below).run _ _ = _ := first
    rw [Reader.move, run_part upper, run_part upper, first]
    exact moved_andThen fun left us read => more left us read
  | restNil level left =>
    rw [Reader.move, map_nil, run_rest_nil, run_rest_nil]
    rfl
  | restCons level left t ts second more =>
    have second : (Reader.part level.below).run _ _ = _ := second
    have sign : level.operator? (t.move m) = level.operator? t := by cases level <;> rfl
    rw [Reader.move, map_cons, run_rest_cons, run_rest_cons, sign]
    cases level.operator? t with
    | none => rfl
    | some op =>
      rw [second]
      refine moved_andThen fun right us read => ?_
      rw [← join_move]
      exact more op right us read
  | operandNil =>
    rw [Reader.move, map_nil, run_operand_nil, run_operand_nil]
    rfl
  | operandCons t ts operand call =>
    have kind : (t.move m).kind = t.kind := rfl
    have operand : (Reader.part .operand).run _ _ = _ := operand
    have call : (Reader.call (t.move m)).run _ _ = _ := call
    rw [Reader.move, map_cons, run_operand_cons, run_operand_cons, kind]
    cases t.kind with
    | minus =>
      rw [operand]
      refine moved_andThen fun f us _ => ?_
      rw [span_move]
      rfl
    | ident =>
      dsimp only
      rw [startsCall_move, call]
      split <;> rfl
    | _ => rfl
  | call name ts body =>
    have nameEnd : (name.move m).span.stop = m.stop name.span.stop := rfl
    rw [Reader.move, run_call, run_call, nameEnd, readChain_move]
    exact moved_andThen fun chain us read =>
      readBody_move m stop fun t us e => body chain t us (e ▸ read)

theorem ofTokens_move (ts : List Token) :
    ofTokens (m.start stop) (ts.map (·.move m)) =
      ((ofTokens stop ts).map (·.move m)).mapError (·.move m) := by
  have sum : (Reader.part .sum).run _ _ = _ := run_move m stop (.part .sum) ts
  rw [ofTokens_eq, ofTokens_eq, isEmpty_map, sum]
  split
  · rfl
  · rcases (Reader.part .sum).run stop ts with fault | ⟨f, - | ⟨t, us⟩⟩ <;> rfl

end

/-! ## Checking elsewhere -/

section

variable (m : Relocation)

def Body.move (b : Body) : Body :=
  ⟨b.formula.move m, b.span.move m, b.issues.map (·.move m)⟩

theorem plainBody?_move (f : Formula) : plainBody? (f.move m) = plainBody? f := by
  cases f with
  | negation operand span => cases operand <;> rfl
  | _ => rfl

theorem bodyArgument_move (b : Body) : bodyArgument (b.move m) = (bodyArgument b).move m := by
  unfold bodyArgument
  simp only [Body.move, plainBody?_move, span_move]
  cases plainBody? b.formula <;> rfl

theorem bodyArgumentIssues_move (label operator : String) (span : CharRange) (b : Body) :
    bodyArgumentIssues ⟨label, operator, span.move m⟩ (b.move m) =
      (bodyArgumentIssues ⟨label, operator, span⟩ b).map (·.move m) := by
  unfold bodyArgumentIssues
  simp only [Body.move, plainBody?_move]
  split <;> rfl

theorem appliedIssues_move (s : Checker) (call : Call) (op : Operator) (b : Body)
    (addressed : Addressee) :
    appliedIssues s (call.move m) op (b.move m) (addressed.move m) =
      (appliedIssues s call op b addressed).map (·.move m) := by
  cases addressed with
  | operator target label xs =>
    have span : (call.move m).span = call.span.move m := rfl
    have issues : (b.move m).issues = b.issues.map (·.move m) := rfl
    have argument : xs.map (·.move m) ++ [bodyArgument (b.move m)] =
        (xs ++ [bodyArgument b]).map (·.move m) := by
      rw [bodyArgument_move, map_append]
      rfl
    simp only [Addressee.move, appliedIssues, span, issues, argument, usageIssues_move,
      bodyArgumentIssues_move]
    split
    · rw [map_append]
    · rw [map_append]
  | noDelegate => rfl
  | noSubOperator => rfl
  | unknownSubOperator owner first => rfl

/-- The issues of a call with a body move with it. -/
theorem checkOperator_body_move (s : Checker) (call : Call) (b : Body) :
    checkOperator s (call.move m) (some (b.move m)) =
      (checkOperator s call (some b)).map (·.move m) := by
  have name : (call.move m).name = call.name := rfl
  rw [checkOperator_applied, checkOperator_applied, name]
  cases s.operators.find? call.name with
  | none => rfl
  | some op =>
    dsimp only
    rw [styleIssues_move, delimiterIssues_move, addressee_move, appliedIssues_move, map_append,
      map_append]

/-- The issues of a formula move with it. -/
theorem check_move (s : Checker) (f : Formula) :
    (f.move m).check s = (f.check s).map (·.move m) := by
  induction f with
  | literal value span => rfl
  | «variable» name span => rfl
  | negation operand span ih => exact ih
  | binary op left right span ihl ihr =>
    rw [check, map_append, ← ihl, ← ihr]
    rfl
  | chain call => exact checkOperator_move m s call
  | applied call body span ih =>
    rw [check, ← checkOperator_body_move, Body.move, ← ih]
    rfl

end

/-! ## Layout -/

/-- Blanks between the tokens of a text change where its parts stand and nothing else: the tokens
are the same, the text is read as the same formula or refused for the same fault, and the same
issues are found. -/
theorem layout_irrelevant {text : String} {ts : List Token} (scanned : scan text = .ok ts)
    {blanks : Nat → List Char} (gaps : Gaps blanks ts) :
    let text' := String.ofList (spread blanks 0 text.toList)
    let m := Relocation.spread blanks
    scan text' = .ok (ts.map (·.move m)) ∧
      parse text' = ((parse text).map (·.move m)).mapError (·.move m) ∧
      ∀ f, parse text = .ok f →
        parse text' = .ok (f.move m) ∧ ∀ s, (f.move m).check s = (f.check s).map (·.move m) := by
  intro text' m
  have tokens : scan text' = .ok (ts.map (·.move m)) := by
    rw [scan, String.toList_ofList]
    exact scans_iff.2 ((scans_iff.1 scanned).spread gaps)
  have length : text'.length = m.start text.length := by
    have whole : inserted blanks 0 + _ = _ := length_spread 0 text.toList
    rw [Nat.zero_add, show inserted blanks 0 = 0 from rfl, Nat.zero_add] at whole
    rw [String.length_ofList, ← String.length_toList]
    exact whole
  have parsed : parse text' = ((parse text).map (·.move m)).mapError (·.move m) := by
    rw [parse, tokens, parse, scanned]
    dsimp only
    rw [length, ofTokens_move]
  refine ⟨tokens, parsed, fun f hf => ⟨?_, fun s => check_move m s f⟩⟩
  rw [parsed, hf]
  rfl

/-- A number on another line than its minus sign. -/
theorem layout_irrelevant_line_break :
    let ts : List Token := [⟨.ident, "f", ⟨0, 1⟩⟩, ⟨.colon, ":", ⟨1, 2⟩⟩, ⟨.minus, "-", ⟨2, 3⟩⟩,
      ⟨numberKind ['.', '5'], ".5", ⟨3, 5⟩⟩]
    let blanks : Nat → List Char := fun i => if i = 3 then ['\n', ' '] else []
    scan "f:-.5" = .ok ts ∧ Gaps blanks ts ∧
      parse "f:-.5" = .ok (.chain ⟨"f", ⟨0, 1⟩, [⟨"-.5", true, ⟨2, 5⟩, ':', 1⟩], ⟨0, 5⟩⟩) ∧
      parse "f:-\n .5" = .ok (.chain ⟨"f", ⟨0, 1⟩, [⟨"-.5", true, ⟨2, 7⟩, ':', 1⟩], ⟨0, 7⟩⟩) := by
  intro ts blanks
  have scanned : scan "f:-.5" = .ok ts := by decide +kernel
  have gaps : Gaps blanks ts := by
    refine ⟨fun i c hc => ?_, fun i given => ?_⟩
    · simp only [blanks] at hc
      split at hc
      · rcases mem_pair.1 hc with rfl | rfl <;> decide
      · simp at hc
    · obtain rfl : i = 3 := by
        by_contra other
        exact given (if_neg other)
      simp [ts]
  have parsed : parse "f:-.5" =
      .ok (.chain ⟨"f", ⟨0, 1⟩, [⟨"-.5", true, ⟨2, 5⟩, ':', 1⟩], ⟨0, 5⟩⟩) := by
    decide +kernel
  exact ⟨scanned, gaps, parsed, ((layout_irrelevant scanned gaps).2.2 _ parsed).1⟩

end Formula

end ModCheck
