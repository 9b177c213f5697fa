import ModCheck.Formula.Token

/-
  Reading formulas. A sum consists of products, and a product of operands that may have minus signs
  before them; both are joined from the left. An operand is a number, a name, or a call: a name
  with a chain of arguments, with a sum in parentheses, or with both. A chain starts with a colon,
  and colons or commas stand between its arguments, which are numbers and names. There is no plus
  sign before an operand, and parentheses do not group.

  Every function returns the tokens it leaves, with the proof that they are fewer.
-/

namespace ModCheck.Formula

/-- What is read from `ts`, and a shorter rest. -/
abbrev Consumed (α : Type) (ts : List Token) : Type :=
  Except Fault (α × { rest : List Token // rest.length < ts.length })

/-- What is read from `ts`, and a rest that is not longer. -/
abbrev Passed (α : Type) (ts : List Token) : Type :=
  Except Fault (α × { rest : List Token // rest.length ≤ ts.length })

/-- The argument after a delimiter at character `offset`; `stop` is the length of the formula. -/
def readAtom (stop : Nat) (delimiter : Char) (offset : Nat) :
    (ts : List Token) → Consumed Argument ts
  | [] => .error (.missingArgument delimiter stop)
  | t :: ts =>
    match t.kind with
    | .number _ =>
      .ok (⟨t.text, true, t.span, delimiter, offset⟩, ⟨ts, Nat.lt_succ_self _⟩)
    | .ident => .ok (⟨t.text, false, t.span, delimiter, offset⟩, ⟨ts, Nat.lt_succ_self _⟩)
    | .minus =>
      match ts with
      | [] => .error (.missingArgument delimiter t.span.start)
      | n :: rest =>
        match n.kind with
        | .number _ =>
          .ok (⟨"-" ++ n.text, true, t.span.through n.span, delimiter, offset⟩,
            ⟨rest, Nat.lt_succ_of_lt (Nat.lt_succ_self _)⟩)
        | _ => .error (.missingArgument delimiter t.span.start)
    | .leftParen => .error (.grouping t.span.start)
    | _ => .error (.missingArgument delimiter t.span.start)

/-- The sign of a token that can stand between arguments. -/
def delimiter? (t : Token) : Option Char :=
  match t.kind with
  | .colon => some ':'
  | .comma => some ','
  | _ => none

/-- Arguments, each after a delimiter. -/
def readAtoms (stop : Nat) : (ts : List Token) → Passed (List Argument) ts
  | [] => .ok ([], ⟨[], Nat.le_refl _⟩)
  | t :: ts =>
    match delimiter? t with
    | none => .ok ([], ⟨t :: ts, Nat.le_refl _⟩)
    | some delimiter =>
      match readAtom stop delimiter t.span.start ts with
      | .error fault => .error fault
      | .ok (argument, ⟨rest, h⟩) =>
        match readAtoms stop rest with
        | .error fault => .error fault
        | .ok (arguments, ⟨rest', h'⟩) =>
          .ok (argument :: arguments,
            ⟨rest', Nat.le_trans h' (Nat.le_succ_of_le (Nat.le_of_lt h))⟩)
termination_by ts => ts.length
decreasing_by exact Nat.lt_succ_of_lt h

/-- Whether nothing follows the colon of a chain. -/
def endsChain : List Token → Bool
  | [] => true
  | t :: _ => t.kind == .rightParen || t.kind == .plus || t.kind == .star || t.kind == .slash

/-- The arguments of a chain and the character where it ends; without a colon there are none and it
ends where the name does, at `nameEnd`. -/
def readChain (stop nameEnd : Nat) : (ts : List Token) → Passed (List Argument × Nat) ts
  | [] => .ok (([], nameEnd), ⟨[], Nat.le_refl _⟩)
  | t :: ts =>
    if t.kind == .colon then
      if endsChain ts then .ok (([], t.span.stop), ⟨ts, Nat.le_succ _⟩)
      else match readAtoms stop (t :: ts) with
        | .error fault => .error fault
        | .ok (arguments, rest) =>
          .ok ((arguments, (arguments.getLast?.map (·.span.stop)).getD t.span.stop), rest)
    else .ok (([], nameEnd), ⟨t :: ts, Nat.le_refl _⟩)

/-- The operators of a sum. -/
def sumOperator? (t : Token) : Option BinaryOperator :=
  match t.kind with
  | .plus => some .add
  | .minus => some .subtract
  | _ => none

/-- The operators of a product. -/
def productOperator? (t : Token) : Option BinaryOperator :=
  match t.kind with
  | .star => some .multiply
  | .slash => some .divide
  | _ => none

/-- Whether a call, and not a bare name, goes on here. -/
def startsCall : List Token → Bool
  | [] => false
  | t :: _ => t.kind == .colon || t.kind == .leftParen

def join (op : BinaryOperator) (left right : Formula) : Formula :=
  .binary op left right (left.span.through right.span)

-- The measures are single numbers, as the kernel evaluates no recursion over pairs.
mutual

/-- A sum. -/
def readSum (stop : Nat) (ts : List Token) : Consumed Formula ts :=
  match readProduct stop ts with
  | .error fault => .error fault
  | .ok (left, ⟨rest, h⟩) =>
    match readSumRest stop left rest with
    | .error fault => .error fault
    | .ok (formula, ⟨rest', h'⟩) => .ok (formula, ⟨rest', Nat.lt_of_le_of_lt h' h⟩)
termination_by 5 * ts.length + 4

/-- The rest of a sum whose first part is `left`. -/
def readSumRest (stop : Nat) (left : Formula) (ts : List Token) : Passed Formula ts :=
  match ts with
  | [] => .ok (left, ⟨[], Nat.le_refl _⟩)
  | t :: ts =>
    match sumOperator? t with
    | none => .ok (left, ⟨t :: ts, Nat.le_refl _⟩)
    | some op =>
      match readProduct stop ts with
      | .error fault => .error fault
      | .ok (right, ⟨rest, h⟩) =>
        match readSumRest stop (join op left right) rest with
        | .error fault => .error fault
        | .ok (formula, ⟨rest', h'⟩) =>
          .ok (formula, ⟨rest', Nat.le_trans h' (Nat.le_succ_of_le (Nat.le_of_lt h))⟩)
termination_by 5 * ts.length

/-- A product. -/
def readProduct (stop : Nat) (ts : List Token) : Consumed Formula ts :=
  match readSigned stop ts with
  | .error fault => .error fault
  | .ok (left, ⟨rest, h⟩) =>
    match readProductRest stop left rest with
    | .error fault => .error fault
    | .ok (formula, ⟨rest', h'⟩) => .ok (formula, ⟨rest', Nat.lt_of_le_of_lt h' h⟩)
termination_by 5 * ts.length + 3

/-- The rest of a product whose first part is `left`. -/
def readProductRest (stop : Nat) (left : Formula) (ts : List Token) : Passed Formula ts :=
  match ts with
  | [] => .ok (left, ⟨[], Nat.le_refl _⟩)
  | t :: ts =>
    match productOperator? t with
    | none => .ok (left, ⟨t :: ts, Nat.le_refl _⟩)
    | some op =>
      match readSigned stop ts with
      | .error fault => .error fault
      | .ok (right, ⟨rest, h⟩) =>
        match readProductRest stop (join op left right) rest with
        | .error fault => .error fault
        | .ok (formula, ⟨rest', h'⟩) =>
          .ok (formula, ⟨rest', Nat.le_trans h' (Nat.le_succ_of_le (Nat.le_of_lt h))⟩)
termination_by 5 * ts.length

/-- An operand with minus signs before it. -/
def readSigned (stop : Nat) (ts : List Token) : Consumed Formula ts :=
  match ts with
  | [] => .error (.unexpectedEnd stop)
  | t :: ts =>
    match t.kind with
    | .minus =>
      match readSigned stop ts with
      | .error fault => .error fault
      | .ok (operand, ⟨rest, h⟩) =>
        .ok (.negation operand (t.span.through operand.span), ⟨rest, Nat.lt_succ_of_lt h⟩)
    | .plus => .error (.unaryPlus t.span.start)
    | .number value => .ok (.literal value t.span, ⟨ts, Nat.lt_succ_self _⟩)
    | .ident =>
      if startsCall ts then
        match readCall stop t ts with
        | .error fault => .error fault
        | .ok (formula, ⟨rest, h⟩) => .ok (formula, ⟨rest, Nat.lt_succ_of_le h⟩)
      else .ok (.variable t.text t.span, ⟨ts, Nat.lt_succ_self _⟩)
    | .leftParen => .error (.grouping t.span.start)
    | _ => .error (.unexpectedToken t.text t.span.start)
termination_by 5 * ts.length + 2

/-- The call of a name that has been read. -/
def readCall (stop : Nat) (name : Token) (ts : List Token) : Passed Formula ts :=
  match readChain stop name.span.stop ts with
  | .error fault => .error fault
  | .ok ((arguments, chainEnd), ⟨[], h⟩) =>
    .ok (.chain ⟨name.text, name.span, arguments, ⟨name.span.start, chainEnd⟩⟩, ⟨[], h⟩)
  | .ok ((arguments, chainEnd), ⟨t :: rest, h⟩) =>
    if t.kind == .leftParen then
      match readSum stop rest with
      | .error fault => .error fault
      | .ok (_, ⟨[], _⟩) => .error (.unclosedParenthesis t.span.start)
      | .ok (body, ⟨close :: rest', h'⟩) =>
        if close.kind == .rightParen then
          .ok (.applied ⟨name.text, name.span, arguments, ⟨name.span.start, close.span.stop⟩⟩ body
              ⟨t.span.start, close.span.stop⟩,
            ⟨rest', by simp only [List.length_cons] at h h'; omega⟩)
        else .error (.unclosedParenthesis t.span.start)
    else
      .ok (.chain ⟨name.text, name.span, arguments, ⟨name.span.start, chainEnd⟩⟩, ⟨t :: rest, h⟩)
termination_by 5 * ts.length + 1
decreasing_by
  simp only [List.length_cons] at h
  omega

end

/-- The formula of a list of tokens, all of them. -/
def ofTokens (stop : Nat) (ts : List Token) : Except Fault Formula :=
  if ts.isEmpty then .error .empty
  else match readSum stop ts with
    | .error fault => .error fault
    | .ok (formula, ⟨[], _⟩) => .ok formula
    | .ok (_, ⟨t :: _, _⟩) => .error (.unexpectedToken t.text t.span.start)

/-- Reads a formula. -/
def parse (text : String) : Except Fault Formula :=
  match scan text with
  | .error fault => .error fault
  | .ok tokens => ofTokens text.length tokens

end ModCheck.Formula
