import ModCheck.Formula.Parser

/-
  The readers of a formula, told apart by what they read. Sums and products are read in the same
  way, a part of the level below and then more of them, so that one `Reader` stands for both. Each
  reader is given by one equation (`run_part`, `run_rest_cons`, `run_operand_cons`, `run_call`), in
  which a fault of the first step is that of the whole (`andThen`), and what holds of all of them is
  proved along these equations (`Reader.induct`).
-/

namespace ModCheck.Formula

variable {level : Level} {left : Formula} {stop : Nat} {ts us : List Token}

/-! ## Levels -/

/-- What a part of a formula may be joined by: anything, products only, or nothing. -/
inductive Level where
  | sum
  | product
  | operand
deriving DecidableEq, Repr

/-- The level of the parts that are joined. -/
def Level.below : Level → Level
  | .sum => .product
  | _ => .operand

/-- The operator that a token between two parts stands for. -/
def Level.operator? : Level → Token → Option BinaryOperator
  | .sum, t => sumOperator? t
  | .product, t => productOperator? t
  | .operand, _ => none

/-! ## Steps -/

/-- What is read and the tokens left, or a fault. -/
abbrev Read (α : Type) := Except Fault (α × List Token)

/-- What a reader returns, without the proof that the tokens left are fewer. -/
def plain {α : Type} {p : List Token → Prop}
    (result : Except Fault (α × { rest : List Token // p rest })) : Read α :=
  result.map fun read => (read.1, read.2.1)

/-- Reads on from the tokens left. -/
def andThen {α β : Type} (first : Read α) (more : α → List Token → Read β) : Read β :=
  match first with
  | .error fault => .error fault
  | .ok (x, ts) => more x ts

theorem eq_ok_of_plain {α : Type} {p : List Token → Prop}
    {result : Except Fault (α × { rest : List Token // p rest })} {x : α}
    (h : plain result = .ok (x, ts)) : ∃ fewer, result = .ok (x, ⟨ts, fewer⟩) := by
  cases result with
  | error fault => simp [plain, Except.map] at h
  | ok read =>
    obtain ⟨rfl, rfl⟩ := Prod.mk.inj (Except.ok.inj h)
    exact ⟨read.2.2, rfl⟩

theorem plain_readAtoms_cons (t : Token) (ts : List Token) :
    plain (readAtoms stop (t :: ts)) =
      match delimiter? t with
      | none => .ok ([], t :: ts)
      | some c => andThen (plain (readAtom stop c t.span.start ts)) fun x us =>
        andThen (plain (readAtoms stop us)) fun xs vs => .ok (x :: xs, vs) := by
  rw [readAtoms]
  cases delimiter? t with
  | none => rfl
  | some c =>
    dsimp only
    rcases readAtom stop c t.span.start ts with fault | ⟨x, us, fewer⟩
    · rfl
    · dsimp only [plain, Except.map, andThen]
      cases readAtoms stop us <;> rfl

theorem plain_readChain_cons (nameEnd : Nat) (t : Token) (ts : List Token) :
    plain (readChain stop nameEnd (t :: ts)) =
      if t.kind = .colon then
        if endsChain ts then .ok (([], t.span.stop), ts)
        else andThen (plain (readAtoms stop (t :: ts))) fun xs us =>
          .ok ((xs, (xs.getLast?.map (·.span.stop)).getD t.span.stop), us)
      else .ok (([], nameEnd), t :: ts) := by
  rw [readChain]
  by_cases colon : t.kind = .colon
  · simp only [colon, beq_self_eq_true, if_true]
    split
    · rfl
    · cases readAtoms stop (t :: ts) <;> rfl
  · simp [colon]
    rfl

/-! ## Readers -/

/-- Reads a part of a level, the rest of one whose first part is read, or the call of a name. -/
inductive Reader where
  | part (level : Level)
  | rest (level : Level) (left : Formula)
  | call (name : Token)

def Reader.run (stop : Nat) : Reader → List Token → Read Formula
  | .part .sum, ts => plain (readSum stop ts)
  | .part .product, ts => plain (readProduct stop ts)
  | .part .operand, ts => plain (readSigned stop ts)
  | .rest .sum left, ts => plain (readSumRest stop left ts)
  | .rest .product left, ts => plain (readProductRest stop left ts)
  | .rest .operand left, ts => .ok (left, ts)
  | .call name, ts => plain (readCall stop name ts)

theorem run_part (upper : level ≠ .operand) (ts : List Token) :
    (Reader.part level).run stop ts =
      andThen ((Reader.part level.below).run stop ts) fun left =>
        (Reader.rest level left).run stop := by
  cases level with
  | sum =>
    simp only [Reader.run, readSum, Level.below]
    rcases readProduct stop ts with fault | ⟨left, us, fewer⟩
    · rfl
    · dsimp only [plain, Except.map, andThen, Reader.run]
      cases readSumRest stop left us <;> rfl
  | product =>
    simp only [Reader.run, readProduct, Level.below]
    rcases readSigned stop ts with fault | ⟨left, us, fewer⟩
    · rfl
    · dsimp only [plain, Except.map, andThen, Reader.run]
      cases readProductRest stop left us <;> rfl
  | operand => exact absurd rfl upper

theorem run_rest_nil (level : Level) (left : Formula) :
    (Reader.rest level left).run stop [] = .ok (left, []) := by
  cases level <;> simp only [Reader.run, readSumRest, readProductRest] <;> rfl

theorem run_rest_cons (level : Level) (left : Formula) (t : Token) (ts : List Token) :
    (Reader.rest level left).run stop (t :: ts) =
      match level.operator? t with
      | none => .ok (left, t :: ts)
      | some op => andThen ((Reader.part level.below).run stop ts) fun right =>
        (Reader.rest level (join op left right)).run stop := by
  cases level with
  | sum =>
    simp only [Reader.run, readSumRest, Level.operator?, Level.below]
    cases sumOperator? t with
    | none => rfl
    | some op =>
      rcases readProduct stop ts with fault | ⟨right, us, fewer⟩
      · rfl
      · dsimp only [plain, Except.map, andThen, Reader.run]
        cases readSumRest stop (join op left right) us <;> rfl
  | product =>
    simp only [Reader.run, readProductRest, Level.operator?, Level.below]
    cases productOperator? t with
    | none => rfl
    | some op =>
      rcases readSigned stop ts with fault | ⟨right, us, fewer⟩
      · rfl
      · dsimp only [plain, Except.map, andThen, Reader.run]
        cases readProductRest stop (join op left right) us <;> rfl
  | operand => rfl

theorem run_operand_nil : (Reader.part .operand).run stop [] = .error (.unexpectedEnd stop) := by
  rw [Reader.run, readSigned]
  rfl

theorem run_operand_cons (t : Token) (ts : List Token) :
    (Reader.part .operand).run stop (t :: ts) =
      match t.kind with
      | .minus => andThen ((Reader.part .operand).run stop ts) fun f us =>
        .ok (.negation f (t.span.through f.span), us)
      | .plus => .error (.unaryPlus t.span.start)
      | .number value => .ok (.literal value t.span, ts)
      | .ident =>
        if startsCall ts then (Reader.call t).run stop ts else .ok (.variable t.text t.span, ts)
      | .leftParen => .error (.grouping t.span.start)
      | _ => .error (.unexpectedToken t.text t.span.start) := by
  rw [Reader.run, readSigned]
  cases t.kind with
  | minus =>
    dsimp only [Reader.run]
    cases readSigned stop ts <;> rfl
  | ident =>
    dsimp only [Reader.run]
    split
    · cases readCall stop t ts <;> rfl
    · rfl
  | _ => rfl

/-- The call of a name whose chain is read, with a body if a parenthesis opens here. -/
def readBody (stop : Nat) (name : Token) (xs : List Argument) (chainEnd : Nat) :
    List Token → Read Formula
  | [] => .ok (.chain ⟨name.text, name.span, xs, ⟨name.span.start, chainEnd⟩⟩, [])
  | t :: ts =>
    if t.kind = .leftParen then
      andThen ((Reader.part .sum).run stop ts) fun body us =>
        match us with
        | [] => .error (.unclosedParenthesis t.span.start)
        | close :: us =>
          if close.kind = .rightParen then
            .ok (.applied ⟨name.text, name.span, xs, ⟨name.span.start, close.span.stop⟩⟩ body
              ⟨t.span.start, close.span.stop⟩, us)
          else .error (.unclosedParenthesis t.span.start)
    else .ok (.chain ⟨name.text, name.span, xs, ⟨name.span.start, chainEnd⟩⟩, t :: ts)

theorem run_call (name : Token) (ts : List Token) :
    (Reader.call name).run stop ts =
      andThen (plain (readChain stop name.span.stop ts)) fun chain =>
        readBody stop name chain.1 chain.2 := by
  rw [Reader.run, readCall]
  rcases readChain stop name.span.stop ts with fault | ⟨⟨xs, chainEnd⟩, us, fewer⟩
  · rfl
  cases us with
  | nil => rfl
  | cons t us =>
    dsimp only [plain, Except.map, andThen, readBody, Reader.run]
    by_cases opens : t.kind = .leftParen
    · simp only [opens]
      rcases readSum stop us with fault | ⟨body, vs, fewer⟩
      · rfl
      cases vs with
      | nil => rfl
      | cons close vs => by_cases closes : close.kind = .rightParen <;> simp [closes]
    · simp [opens]

theorem ofTokens_eq (stop : Nat) (ts : List Token) :
    ofTokens stop ts =
      if ts.isEmpty then .error .empty
      else match (Reader.part .sum).run stop ts with
        | .error fault => .error fault
        | .ok (f, []) => .ok f
        | .ok (_, t :: _) => .error (.unexpectedToken t.text t.span.start) := by
  rw [ofTokens, Reader.run]
  rcases readSum stop ts with fault | ⟨f, - | ⟨t, us⟩, fewer⟩ <;> rfl

/-! ## Induction -/

/-- Fewer tokens, or as many for a reader that comes first. -/
def Reader.rank : Reader → Nat
  | .part .sum => 4
  | .part .product => 3
  | .part .operand => 2
  | .call _ => 1
  | .rest _ _ => 0

theorem length_lt_of_run {f : Formula} (h : (Reader.part level).run stop ts = .ok (f, us)) :
    us.length < ts.length := by
  cases level with
  | _ =>
    obtain ⟨fewer, -⟩ := eq_ok_of_plain h
    exact fewer

/-- What holds of a reader if it holds of those it calls holds of all. -/
theorem Reader.induct (stop : Nat) {P : Reader → List Token → Prop}
    (part : ∀ level ts, level ≠ .operand → P (.part level.below) ts →
      (∀ left us, (Reader.part level.below).run stop ts = .ok (left, us) →
        P (.rest level left) us) →
      P (.part level) ts)
    (restNil : ∀ level left, P (.rest level left) [])
    (restCons : ∀ level left t ts, P (.part level.below) ts →
      (∀ op right us, (Reader.part level.below).run stop ts = .ok (right, us) →
        P (.rest level (join op left right)) us) →
      P (.rest level left) (t :: ts))
    (operandNil : P (.part .operand) [])
    (operandCons : ∀ t ts, P (.part .operand) ts → P (.call t) ts → P (.part .operand) (t :: ts))
    (call : ∀ name ts,
      (∀ chain t us, plain (readChain stop name.span.stop ts) = .ok (chain, t :: us) →
        P (.part .sum) us) → P (.call name) ts)
    (reader : Reader) (ts : List Token) : P reader ts := by
  have ih (reader' : Reader) (us : List Token)
      (before : us.length < ts.length ∨ us.length = ts.length ∧ reader'.rank < reader.rank) :
      P reader' us :=
    Reader.induct stop part restNil restCons operandNil operandCons call reader' us
  match reader, ts with
  | .part .sum, ts =>
    exact part .sum ts (by decide) (ih _ ts (.inr ⟨rfl, by decide⟩)) fun left us h =>
      ih _ us (.inl (length_lt_of_run h))
  | .part .product, ts =>
    exact part .product ts (by decide) (ih _ ts (.inr ⟨rfl, by decide⟩)) fun left us h =>
      ih _ us (.inl (length_lt_of_run h))
  | .part .operand, [] => exact operandNil
  | .part .operand, t :: ts =>
    exact operandCons t ts (ih _ ts (.inl (Nat.lt_succ_self _)))
      (ih _ ts (.inl (Nat.lt_succ_self _)))
  | .rest level left, [] => exact restNil level left
  | .rest level left, t :: ts =>
    exact restCons level left t ts (ih _ ts (.inl (Nat.lt_succ_self _))) fun op right us h =>
      ih _ us (.inl (Nat.lt_succ_of_lt (length_lt_of_run h)))
  | .call name, ts =>
    refine call name ts fun chain t us h => ih _ us (.inl ?_)
    obtain ⟨least, -⟩ := eq_ok_of_plain h
    exact least
termination_by (ts.length, reader.rank)
decreasing_by
  rcases before with fewer | ⟨same, first⟩
  · exact .left _ _ fewer
  · rw [same]
    exact .right _ first

end ModCheck.Formula
