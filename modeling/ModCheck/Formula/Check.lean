import ModCheck.Decimal.Shortest
import ModCheck.Formula
import ModCheck.Schema.Operator
import ModCheck.Suggestion.Unknown

/-
  Checking a formula against the operators of a schema: names are known, calls are written in the
  operator's style, delimiters are allowed, and the arguments fit a usage. An operator with
  sub-operators takes one of them as its first argument. Arguments of a chain that a usage leaves
  over form a call of their own, the formula argument of that usage.
-/

namespace ModCheck.Formula

/-- What a check depends on. -/
structure Checker where
  operators : NameTable Operator
  /-- The distance up to which names are suggested. -/
  limit : Nat
  /-- Whether the placeholder may stand for a number. -/
  allowX : Bool

/-- The name that is filled in with a number later. -/
def placeholder : String := "x"

/-- The body of a call, with the issues found in it. -/
structure Body where
  formula : Formula
  span : CharRange
  issues : List Issue

def bodyIssues (body : Option Body) : List Issue :=
  match body with
  | some b => b.issues
  | none => []

/-- How a call is named in issues: by its label, and for the documentation by its operator. -/
structure CallSite where
  label : String
  operator : String
  span : CharRange

/-- An error about an operator. -/
def operatorIssue (ctx : CallSite) (code : Code) (text : String) (range : CharRange) : Issue :=
  { severity := .error, code, text, range, operator := some ctx.operator }

/-! ## The form of a call -/

/-- Function-style operators want a body, the others a chain. -/
def styleIssues (call : Call) (hasBody : Bool) (op : Operator) : List Issue :=
  let ctx : CallSite := ⟨call.name, op.name, call.span⟩
  match op.functionStyle, hasBody with
  | true, false =>
    [operatorIssue ctx .callingStyle
      ("'" ++ call.name ++ "' is a function-style operator; write " ++ call.name ++ "(...)")
      call.span]
  | false, true =>
    [operatorIssue ctx .callingStyle
      ("'" ++ call.name ++ "' uses colon syntax; write " ++ call.name ++ ":arg:...") call.span]
  | _, _ => []

/-- A delimiter other than the colon has to be one of the operator's. -/
def delimiterIssues (call : Call) (op : Operator) : List Issue :=
  call.arguments.filterMap fun argument =>
    if argument.delimiter == ':' || argument.delimiter == '('
        || op.alternateDelimiters.contains argument.delimiter.toString then none
    else
      some { severity := .error, code := .alternateDelimiter
             text := "'" ++ call.name ++ "' does not accept '" ++ argument.delimiter.toString
               ++ "' between arguments"
             range := ⟨argument.delimiterOffset, argument.delimiterOffset + 1⟩
             suggestion := some "Use ':' between arguments"
             replacement := some ":"
             operator := some op.name }

/-! ## Whose arguments they are -/

/-- The operator that a call's arguments belong to. -/
inductive Addressee where
  | operator (op : Operator) (label : String) (arguments : List Argument)
  /-- The operator shares sub-operators of one that has none. -/
  | noDelegate
  /-- The first argument is missing. -/
  | noSubOperator
  /-- The first argument names no sub-operator of `owner`. -/
  | unknownSubOperator (owner : Operator) (first : Argument)

/-- The sub-operator that the first argument chooses. -/
def chooseSubOperator (owner : Operator) (label : String) : List Argument → Addressee
  | [] => .noSubOperator
  | first :: rest =>
    match if first.isNumber then none else owner.subTable.find? first.text with
    | some sub => .operator sub (label ++ ":" ++ sub.name) rest
    | none => .unknownSubOperator owner first

def addressee (operators : NameTable Operator) (op : Operator) (call : Call) : Addressee :=
  match op.delegatesTo with
  | some name =>
    match operators.find? name with
    | some target =>
      if target.hasSubOperators then chooseSubOperator target call.name call.arguments
      else .noDelegate
    | none => .noDelegate
  | none =>
    if op.hasSubOperators then chooseSubOperator op call.name call.arguments
    else .operator op call.name call.arguments

theorem chooseSubOperator_length_le {owner : Operator} {label : String} {arguments : List Argument}
    {op : Operator} {label' : String} {rest : List Argument}
    (h : chooseSubOperator owner label arguments = .operator op label' rest) :
    rest.length ≤ arguments.length := by
  cases arguments with
  | nil => simp [chooseSubOperator] at h
  | cons first tail =>
    simp only [chooseSubOperator] at h
    split at h
    · simp only [Addressee.operator.injEq] at h
      simp [← h.2.2]
    · simp at h

theorem addressee_length_le {operators : NameTable Operator} {op : Operator} {call : Call}
    {op' : Operator} {label : String} {rest : List Argument}
    (h : addressee operators op call = .operator op' label rest) :
    rest.length ≤ call.arguments.length := by
  simp only [addressee] at h
  split at h
  · split at h
    · split at h
      · exact chooseSubOperator_length_le h
      · simp at h
    · simp at h
  · split at h
    · exact chooseSubOperator_length_le h
    · simp only [Addressee.operator.injEq] at h
      simp [h.2.2]

/-! ## Arguments -/

/-- A body that is no more than a number or a name, as the text of an argument. -/
def plainBody? : Formula → Option (String × Bool)
  | .literal value _ => some (value.plainText, true)
  | .negation (.literal value _) _ => some ("-" ++ value.plainText, true)
  | .variable name _ => some (name, false)
  | _ => none

/-- The argument that a body makes up for an operator without formula arguments. Whatever it is, it
counts as one. -/
def bodyArgument (body : Body) : Argument :=
  match plainBody? body.formula with
  | some (text, isNumber) => ⟨text, isNumber, body.formula.span, '(', body.span.start⟩
  | none => ⟨"", true, body.span, '(', body.span.start⟩

/-- The issues about a body that is made an argument. -/
def bodyArgumentIssues (ctx : CallSite) (body : Body) : List Issue :=
  if (plainBody? body.formula).isSome then []
  else
    operatorIssue ctx .argumentType
      ("'" ++ ctx.label ++ "' takes plain values, not an expression") body.span :: body.issues

/-- How many arguments of a chain belong to the call itself, when more are given than some usage
with a formula at its end takes. -/
def chainLength? (op : Operator) (arguments : List Argument) (body : Option Body) : Option Nat :=
  if op.takesFormula && body.isNone then
    (((op.usages.filter endsInFormula).map (·.length - 1)).filter (· < arguments.length)).max?
  else none

/-- Numbers of arguments as part of a sentence: `1 argument`, `1 or 2 arguments`. -/
def countPhrase (arities : List Nat) : String :=
  let noun := if arities == [1] then "argument" else "arguments"
  let joined := match (arities.map toString).reverse with
    | [] => "no"
    | [only] => only
    | last :: init => ", ".intercalate init.reverse ++ " or " ++ last
  joined ++ " " ++ noun

/-- A numeric argument has to be a number, or the placeholder where that is allowed. -/
def numericIssues (s : Checker) (ctx : CallSite) (spec : ArgumentSpec) (argument : Argument) :
    List Issue :=
  if spec.kind != .numeric || argument.isNumber
      || (s.allowX && argument.text == placeholder) then []
  else
    let text :=
      if argument.text == placeholder then
        "Placeholder 'x' is not allowed for argument '" ++ spec.name ++ "' of '" ++ ctx.label
          ++ "' here"
      else
        "Argument '" ++ spec.name ++ "' of '" ++ ctx.label ++ "' must be a number, got '"
          ++ argument.text ++ "'"
    [operatorIssue ctx .argumentType text argument.span]

/-- The issues about the number and kind of plain arguments. -/
def usageIssues (s : Checker) (ctx : CallSite) (op : Operator) (plain : List Argument)
    (hasFormula : Bool) : List Issue :=
  if op.arities.contains plain.length then
    match op.usageWith? plain.length hasFormula with
    | none => []
    | some usage =>
      ((plain.zip (plainArguments usage)).flatMap fun (argument, spec) =>
          numericIssues s ctx spec argument) ++
        if endsInFormula usage && !hasFormula then
          [operatorIssue ctx .missingBody
            ("'" ++ ctx.label ++ "' expects a formula as its last argument") ctx.span]
        else []
  else
    [operatorIssue ctx .formulaArity
      ("'" ++ ctx.label ++ "' expects " ++ countPhrase op.arities ++ " but got "
        ++ toString plain.length) ctx.span]

/-! ## Calls inside a chain -/

/-- What the arguments left over in a chain are. -/
inductive Surplus where
  /-- A number, or a name that is no operator. -/
  | value
  /-- More arguments after a number. -/
  | misplaced (issue : Issue)
  | call (call : Call)

/-- Reads arguments left over as a call of the first of them. -/
def surplus (operators : NameTable Operator) : List Argument → Surplus
  | [] => .value
  | head :: rest =>
    if head.isNumber then
      match rest with
      | [] => .value
      | extra :: _ =>
        .misplaced
          { severity := .error, code := .argumentType
            text := "Expected an operator name before '" ++ extra.text ++ "'"
            range := head.span }
    else if rest.isEmpty && (operators.find? head.text).isNone then .value
    else
      .call ⟨head.text, head.span, rest,
        ⟨head.span.start, (rest.getLast?.map (·.span.stop)).getD head.span.stop⟩⟩

/-- The call has fewer arguments than were left over. -/
theorem surplus_length_lt {operators : NameTable Operator} {arguments : List Argument} {call : Call}
    (h : surplus operators arguments = .call call) : call.arguments.length < arguments.length := by
  cases arguments with
  | nil => simp [surplus] at h
  | cons head rest =>
    simp only [surplus] at h
    split at h
    · split at h <;> simp at h
    · split at h
      · simp at h
      · simp only [Surplus.call.injEq] at h
        simp [← h]

/-! ## Formulas -/

set_option linter.unusedVariables false in
/-- The issues of a call. -/
def checkOperator (s : Checker) (call : Call) (body : Option Body) : List Issue :=
  match s.operators.find? call.name with
  | none =>
    .ofUnknown s.limit .unknownOperator ("Unknown operator '" ++ call.name ++ "'") call.name
      s.operators.names call.nameSpan :: bodyIssues body
  | some op =>
    styleIssues call body.isSome op ++ delimiterIssues call op ++
      match h : addressee s.operators op call with
      | .noDelegate => bodyIssues body
      | .noSubOperator =>
        operatorIssue ⟨call.name, op.name, call.span⟩ .formulaArity
          ("'" ++ call.name ++ "' expects a sub-operator argument") call.span :: bodyIssues body
      | .unknownSubOperator owner first =>
        { Issue.ofUnknown s.limit .unknownSubOperator
            ("Unknown sub-operator '" ++ first.text ++ "' for '" ++ call.name ++ "'") first.text
            owner.subTable.names first.span with
          operator := some op.name } :: bodyIssues body
      | .operator target label arguments =>
        let ctx : CallSite := ⟨label, op.name, call.span⟩
        match chainLength? target arguments body with
        | some n =>
          usageIssues s ctx target (arguments.take n) true ++
            match h' : surplus s.operators (arguments.drop n) with
            | .value => []
            | .misplaced issue => [issue]
            | .call inner => checkOperator s inner none
        | none =>
          match body with
          | none => usageIssues s ctx target arguments false
          | some b =>
            if target.takesFormula then usageIssues s ctx target arguments true ++ b.issues
            else
              bodyArgumentIssues ctx b
                ++ usageIssues s ctx target (arguments ++ [bodyArgument b]) false
termination_by call.arguments.length
decreasing_by
  have h₁ := addressee_length_le h
  have h₂ := surplus_length_lt h'
  simp only [List.length_drop] at h₂
  omega

/-- The issues of a formula, in the order in which it is written. -/
def check (s : Checker) : Formula → List Issue
  | .literal _ _ => []
  | .variable _ _ => []
  | .negation operand _ => check s operand
  | .binary _ left right _ => check s left ++ check s right
  | .chain call => checkOperator s call none
  | .applied call body bodySpan => checkOperator s call (some ⟨body, bodySpan, check s body⟩)

end ModCheck.Formula
