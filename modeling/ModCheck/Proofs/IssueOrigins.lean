import ModCheck.Validation.Value

/-
  Where the issues of a value come from. `CallIssue`, `TagIssue` and `ValueIssue` have one case for
  each check of a call, of a tag and of a value, with what the check found; every issue is one of
  them (`callIssue_of_mem`, `tagIssue_of_mem`, `valueIssue_of_mem`). A call inside a chain has its
  issues among those of the chain, which is the one place where an induction is needed.
-/

namespace ModCheck

open List
open Text (Piece)

variable {i : Issue} {type : FieldType}

/-! ## Calls -/

namespace Formula

variable {body : Option Body} {call : Call} {i : Issue} {op : Operator}

section

variable {operators : NameTable Operator} {op owner target : Operator} {call : Call}
  {label : String} {xs : List Argument} {first : Argument}

/-- Whose arguments a call's are is fixed by its operator, up to the choice of a sub-operator. -/
theorem addressee_cases (operators : NameTable Operator) (op : Operator) :
    (∃ owner, (owner = op ∨ ∃ key, operators.find? key = some owner) ∧
        ∀ call, addressee operators op call = chooseSubOperator owner call.name call.arguments) ∨
      (∀ call, addressee operators op call = .noDelegate) ∨
      ∀ call, addressee operators op call = .operator op call.name call.arguments := by
  cases delegates : op.delegatesTo with
  | some name =>
    cases found : operators.find? name with
    | none => exact Or.inr (Or.inl fun _ => by simp [addressee, delegates, found])
    | some target =>
      cases has : target.hasSubOperators with
      | true =>
        refine Or.inl ⟨target, Or.inr ⟨name, found⟩, fun _ => ?_⟩
        simp [addressee, delegates, found, has]
      | false => exact Or.inr (Or.inl fun _ => by simp [addressee, delegates, found, has])
  | none =>
    cases has : op.hasSubOperators with
    | true => exact Or.inl ⟨op, Or.inl rfl, fun _ => by simp [addressee, delegates, has]⟩
    | false => exact Or.inr (Or.inr fun _ => by simp [addressee, delegates, has])

theorem chooseSubOperator_eq_operator {label' : String} {rest : List Argument}
    (h : chooseSubOperator owner label xs = .operator target label' rest) :
    label' = label ++ ":" ++ target.name ∧ ∃ first, xs = first :: rest ∧
      first.isNumber = false ∧ owner.subTable.find? first.text = some target := by
  cases xs with
  | nil => simp [chooseSubOperator] at h
  | cons first tail =>
    simp only [chooseSubOperator] at h
    split at h
    · next sub found =>
      obtain ⟨rfl, rfl, rfl⟩ := Addressee.operator.inj h
      obtain ⟨number, found⟩ := Option.ite_none_left_eq_some.1 found
      exact ⟨rfl, first, rfl, by simpa using number, found⟩
    · simp at h

theorem chooseSubOperator_eq_unknown {owner' : Operator}
    (h : chooseSubOperator owner label xs = .unknownSubOperator owner' first) :
    owner' = owner ∧ ∃ rest, xs = first :: rest := by
  cases xs with
  | nil => simp [chooseSubOperator] at h
  | cons x xs =>
    simp only [chooseSubOperator] at h
    split at h
    · simp at h
    · obtain ⟨rfl, rfl⟩ := Addressee.unknownSubOperator.inj h
      exact ⟨rfl, xs, rfl⟩

theorem addressee_suffix (h : addressee operators op call = .operator target label xs) :
    xs <:+ call.arguments := by
  rcases addressee_cases operators op with ⟨owner, -, choose⟩ | none | own
  · obtain ⟨-, first, e, -⟩ := chooseSubOperator_eq_operator ((choose call).symm.trans h)
    rw [e]
    exact suffix_cons first xs
  · simp [none] at h
  · rw [own] at h
    obtain ⟨-, -, rfl⟩ := Addressee.operator.inj h
    exact suffix_refl _

/-- The operator among whose sub-operators a name is looked up is declared. -/
theorem addressee_unknown (found : operators.find? call.name = some op)
    (h : addressee operators op call = .unknownSubOperator owner first) :
    first ∈ call.arguments ∧ ∃ key, operators.find? key = some owner := by
  rcases addressee_cases operators op with ⟨owner, declared, choose⟩ | none | own
  · obtain ⟨rfl, rest, e⟩ := chooseSubOperator_eq_unknown ((choose call).symm.trans h)
    refine ⟨by simp [e], ?_⟩
    rcases declared with rfl | declared
    · exact ⟨_, found⟩
    · exact declared
  · simp [none] at h
  · simp [own] at h

/-- The call among arguments left over is the first of them with the others behind it. -/
theorem surplus_eq_call {inner : Call} (h : surplus operators xs = .call inner) :
    ∃ head rest, xs = head :: rest ∧ head.isNumber = false ∧
      inner = ⟨head.text, head.span, rest,
        ⟨head.span.start, (rest.getLast?.map (·.span.stop)).getD head.span.stop⟩⟩ := by
  cases xs with
  | nil => simp [surplus] at h
  | cons head rest =>
    simp only [surplus] at h
    split at h
    · split at h <;> simp at h
    · next word =>
      split at h
      · simp at h
      · exact ⟨head, rest, rfl, by simpa using word, (Surplus.call.inj h).symm⟩

theorem surplus_suffix {inner : Call} (h : surplus operators xs = .call inner) :
    inner.arguments <:+ xs := by
  obtain ⟨head, rest, rfl, -, rfl⟩ := surplus_eq_call h
  exact suffix_cons head rest

theorem surplus_eq_misplaced (h : surplus operators xs = .misplaced i) :
    ∃ head extra rest, xs = head :: extra :: rest ∧
      i = { severity := .error, code := .argumentType
            text := "Expected an operator name before '" ++ extra.text ++ "'"
            range := head.span } := by
  cases xs with
  | nil => simp [surplus] at h
  | cons head rest =>
    simp only [surplus] at h
    split at h
    · split at h
      · simp at h
      · exact ⟨head, _, _, rfl, (Surplus.misplaced.inj h).symm⟩
    · split at h <;> simp at h

end

section

variable (s : Checker)

/-- The issues that the checks of a call can give. -/
inductive CallIssue : Call → Option Body → Issue → Prop
  | unknown {call : Call} {body : Option Body} (h : s.operators.find? call.name = none) :
      CallIssue call body (.ofUnknown s.limit .unknownOperator
        ("Unknown operator '" ++ call.name ++ "'") call.name s.operators.names call.nameSpan)
  | style {call : Call} {body : Option Body} {op : Operator} {text : String}
      (h : s.operators.find? call.name = some op)
      (ht : text = "'" ++ call.name ++ "' is a function-style operator; write " ++ call.name ++
          "(...)" ∨
        text = "'" ++ call.name ++ "' uses colon syntax; write " ++ call.name ++ ":arg:...") :
      CallIssue call body
        (operatorIssue ⟨call.name, op.name, call.span⟩ .callingStyle text call.span)
  | delimiter {call : Call} {body : Option Body} {op : Operator} {x : Argument}
      (h : s.operators.find? call.name = some op) (hx : x ∈ call.arguments)
      (sign : x.delimiter ≠ ':') :
      CallIssue call body
        { severity := .error, code := .alternateDelimiter
          text := "'" ++ call.name ++ "' does not accept '" ++ x.delimiter.toString
            ++ "' between arguments"
          range := ⟨x.delimiterOffset, x.delimiterOffset + 1⟩
          suggestion := some "Use ':' between arguments"
          replacement := some ":"
          operator := some op.name }
  | noSubOperator {call : Call} {body : Option Body} {op : Operator}
      (h : s.operators.find? call.name = some op)
      (e : addressee s.operators op call = .noSubOperator) :
      CallIssue call body (operatorIssue ⟨call.name, op.name, call.span⟩ .formulaArity
        ("'" ++ call.name ++ "' expects a sub-operator argument") call.span)
  | unknownSubOperator {call : Call} {body : Option Body} {op owner : Operator} {first : Argument}
      (h : s.operators.find? call.name = some op)
      (e : addressee s.operators op call = .unknownSubOperator owner first) :
      CallIssue call body
        { Issue.ofUnknown s.limit .unknownSubOperator
            ("Unknown sub-operator '" ++ first.text ++ "' for '" ++ call.name ++ "'") first.text
            owner.subTable.names first.span with
          operator := some op.name }
  /-- About an argument that has to be a number; the body may be one. -/
  | numeric {call : Call} {body : Option Body} {op target : Operator} {label text : String}
      {xs : List Argument} {x : Argument} {n : Nat} {hasFormula : Bool} {usage : Usage}
      {spec : ArgumentSpec} (h : s.operators.find? call.name = some op)
      (e : addressee s.operators op call = .operator target label xs)
      (hx : x ∈ xs ∨ ∃ b ∈ body, x = bodyArgument b) (word : x.isNumber = false)
      (hu : target.usageWith? n hasFormula = some usage) (hs : spec ∈ plainArguments usage)
      (ht : text = "Placeholder 'x' is not allowed for argument '" ++ spec.name ++ "' of '" ++
          label ++ "' here" ∨
        text = "Argument '" ++ spec.name ++ "' of '" ++ label ++ "' must be a number, got '" ++
          x.text ++ "'") :
      CallIssue call body (operatorIssue ⟨label, op.name, call.span⟩ .argumentType text x.span)
  | noBody {call : Call} {body : Option Body} {op target : Operator} {label : String}
      {xs : List Argument} (h : s.operators.find? call.name = some op)
      (e : addressee s.operators op call = .operator target label xs) :
      CallIssue call body (operatorIssue ⟨label, op.name, call.span⟩ .missingBody
        ("'" ++ label ++ "' expects a formula as its last argument") call.span)
  | arity {call : Call} {body : Option Body} {op target : Operator} {label : String}
      {xs : List Argument} {count : Nat} (h : s.operators.find? call.name = some op)
      (e : addressee s.operators op call = .operator target label xs) :
      CallIssue call body (operatorIssue ⟨label, op.name, call.span⟩ .formulaArity
        ("'" ++ label ++ "' expects " ++ countPhrase target.arities ++ " but got "
          ++ toString count) call.span)
  | expression {call : Call} {body : Option Body} {op target : Operator} {label : String}
      {xs : List Argument} {b : Body} (h : s.operators.find? call.name = some op)
      (e : addressee s.operators op call = .operator target label xs) (hb : b ∈ body) :
      CallIssue call body (operatorIssue ⟨label, op.name, call.span⟩ .argumentType
        ("'" ++ label ++ "' takes plain values, not an expression") b.span)
  | misplaced {call : Call} {body : Option Body} {op target : Operator} {label : String}
      {xs : List Argument} {head extra : Argument} (h : s.operators.find? call.name = some op)
      (e : addressee s.operators op call = .operator target label xs) (hhead : head ∈ xs)
      (hextra : extra ∈ xs) :
      CallIssue call body
        { severity := .error, code := .argumentType
          text := "Expected an operator name before '" ++ extra.text ++ "'"
          range := head.span }
  /-- About the call that arguments left over make up. -/
  | inner {call inner : Call} {body : Option Body} {op target : Operator} {label : String}
      {xs : List Argument} {n : Nat} {i : Issue} (h : s.operators.find? call.name = some op)
      (e : addressee s.operators op call = .operator target label xs)
      (hn : chainLength? target xs body = some n)
      (e' : surplus s.operators (xs.drop n) = .call inner) (hi : CallIssue inner none i) :
      CallIssue call body i
  | body {call : Call} {body : Option Body} {b : Body} {i : Issue} (hb : b ∈ body)
      (hi : i ∈ b.issues) : CallIssue call body i

variable {s}

theorem CallIssue.of_bodyIssues (h : i ∈ bodyIssues body) : CallIssue s call body i := by
  cases body with
  | none => simp [bodyIssues] at h
  | some b => exact .body rfl h

theorem CallIssue.of_styleIssues (h : s.operators.find? call.name = some op)
    (hi : i ∈ styleIssues call body.isSome op) : CallIssue s call body i := by
  unfold styleIssues at hi
  split at hi
  · rw [mem_singleton.1 hi]
    exact .style h (.inl rfl)
  · rw [mem_singleton.1 hi]
    exact .style h (.inr rfl)
  · simp at hi

theorem CallIssue.of_delimiterIssues (h : s.operators.find? call.name = some op)
    (hi : i ∈ delimiterIssues call op) : CallIssue s call body i := by
  obtain ⟨x, hx, e⟩ := mem_filterMap.1 hi
  obtain ⟨refused, e⟩ := Option.ite_none_left_eq_some.1 e
  rw [← Option.some.inj e]
  refine .delimiter h hx fun colon => ?_
  simp [colon] at refused

theorem CallIssue.of_usageIssues {target : Operator} {label : String} {xs plain : List Argument}
    {hasFormula : Bool} (h : s.operators.find? call.name = some op)
    (e : addressee s.operators op call = .operator target label xs)
    (given : ∀ x ∈ plain, x ∈ xs ∨ ∃ b ∈ body, x = bodyArgument b)
    (hi : i ∈ usageIssues s ⟨label, op.name, call.span⟩ target plain hasFormula) :
    CallIssue s call body i := by
  unfold usageIssues at hi
  split at hi
  · split at hi
    · simp at hi
    · next usage hu =>
      rcases mem_append.1 hi with hi | hi
      · obtain ⟨⟨x, spec⟩, hmem, hi⟩ := mem_flatMap.1 hi
        obtain ⟨hx, hs⟩ := of_mem_zip hmem
        dsimp only [numericIssues] at hi
        split at hi
        · simp at hi
        · next wrong =>
          rw [mem_singleton.1 hi]
          simp only [Bool.or_eq_true, not_or, Bool.not_eq_true] at wrong
          refine .numeric h e (given x hx) wrong.1.2 hu hs ?_
          split
          · exact .inl rfl
          · exact .inr rfl
      · split at hi
        · rw [mem_singleton.1 hi]
          exact .noBody h e
        · simp at hi
  · rw [mem_singleton.1 hi]
    exact .arity h e

theorem CallIssue.of_misplaced {target : Operator} {label : String} {xs ys : List Argument}
    (h : s.operators.find? call.name = some op)
    (e : addressee s.operators op call = .operator target label xs) (hys : ys ⊆ xs)
    (e' : surplus s.operators ys = .misplaced i) : CallIssue s call body i := by
  obtain ⟨head, extra, rest, rfl, rfl⟩ := surplus_eq_misplaced e'
  exact .misplaced h e (hys (by simp)) (hys (by simp))

theorem callIssue_of_mem (hi : i ∈ checkOperator s call body) : CallIssue s call body i := by
  fun_induction checkOperator s call body with
  | case1 call body h =>
    rcases mem_cons.1 hi with rfl | hi
    · exact .unknown h
    · exact .of_bodyIssues hi
  | case2 call body op h ih =>
    simp only [mem_append] at hi
    rcases hi with (hi | hi) | hi
    · exact .of_styleIssues h hi
    · exact .of_delimiterIssues h hi
    · split at hi
      · exact .of_bodyIssues hi
      · next e =>
        rcases mem_cons.1 hi with rfl | hi
        · exact .noSubOperator h e
        · exact .of_bodyIssues hi
      · next owner first e =>
        rcases mem_cons.1 hi with rfl | hi
        · exact .unknownSubOperator h e
        · exact .of_bodyIssues hi
      · next target label xs e =>
        split at hi
        · next n hn =>
          rcases mem_append.1 hi with hi | hi
          · exact .of_usageIssues h e (fun x hx => .inl (mem_of_mem_take hx)) hi
          · split at hi
            · simp at hi
            · next issue e' =>
              rw [mem_singleton.1 hi]
              exact .of_misplaced h e (drop_subset n xs) e'
            · next inner e' => exact .inner h e hn e' (ih target label xs e n inner e' hi)
        · split at hi
          · exact .of_usageIssues h e (fun x hx => .inl hx) hi
          · next b hn =>
            split at hi
            · rcases mem_append.1 hi with hi | hi
              · exact .of_usageIssues h e (fun x hx => .inl hx) hi
              · exact .body rfl hi
            · rcases mem_append.1 hi with hi | hi
              · unfold bodyArgumentIssues at hi
                split at hi
                · simp at hi
                · rcases mem_cons.1 hi with rfl | hi
                  · exact .expression h e rfl
                  · exact .body rfl hi
              · refine .of_usageIssues h e (fun x hx => ?_) hi
                exact (mem_append.1 hx).imp_right fun hx =>
                  ⟨b, rfl, mem_singleton.1 hx⟩

end

end Formula

/-! ## Tags -/

namespace RichText

variable {i : Issue} {spec : TagSpec}

section

variable (s : Checker) (tag : Tag)

/-- Whose arguments a tag has: its own, or those of the command that its first one names. -/
inductive Labelled : String → TagSpec → List TagArgument → Prop
  | tag {spec : TagSpec} (h : s.schema.tags.findTag? tag.name = some spec) :
      Labelled spec.name spec tag.arguments
  | command {owner spec : TagSpec} {key : String} {first : TagArgument} {rest : List TagArgument}
      (h : s.schema.tags.findTag? tag.name = some owner)
      (hc : s.schema.commands.findTag? key = some spec) (e : tag.arguments = first :: rest) :
      Labelled (tag.name ++ "=" ++ spec.name) spec rest

/-- The issues that the checks of a tag can give. -/
inductive TagIssue : Issue → Prop
  | nested {r : CharRange} (h : r = tag.range ∨ ∃ x ∈ tag.arguments, r = x.range) :
      TagIssue (bracketIssue r)
  | unknown (h : s.schema.tags.findTag? tag.name = none) :
      TagIssue (.ofUnknown s.limit .unknownTag
        (if tag.name == "" then "Empty tag" else "Unknown tag '" ++ tag.name ++ "'") tag.name
        s.schema.tags.names tag.nameRange)
  | noCommand {spec : TagSpec} (h : s.schema.tags.findTag? tag.name = some spec) :
      TagIssue (commandIssues.missing tag)
  | unknownCommand {first : TagArgument} {piece : Piece} (hx : first ∈ tag.arguments)
      (e : piece = (Piece.mk first.text.toList first.range).trim)
      (h : s.schema.commands.findTag? (String.ofList piece.text) = none) :
      TagIssue (.ofUnknown s.limit .unknownCommand
        ("Unknown command '" ++ String.ofList piece.text ++ "'") (String.ofList piece.text)
        s.schema.commands.names piece.range)
  | tooMany {label : String} {spec : TagSpec} {xs : List TagArgument} {counted : Nat}
      (h : Labelled s tag label spec xs) :
      TagIssue { severity := .error, code := .tagArity
                 text := "'" ++ label ++ "' takes at most " ++ toString spec.maxArguments ++ " "
                   ++ countNoun spec.maxArguments ++ " but got " ++ toString counted
                 range := tag.range }
  | tooFew {label : String} {spec : TagSpec} {xs : List TagArgument}
      (h : Labelled s tag label spec xs) :
      TagIssue { severity := .error, code := .tagArity
                 text := "'" ++ label ++ "' requires " ++ toString spec.required.length ++ " "
                   ++ countNoun spec.required.length ++ " but got " ++ toString xs.length
                 range := tag.range }
  | style {label : String} {spec : TagSpec} {xs : List TagArgument}
      (h : Labelled s tag label spec xs) (hints : s.styleHints = true) (none : xs.length = 0) :
      TagIssue { severity := .info, code := .zeroArgumentStyle
                 text := "Tags without arguments are written as <" ++ tag.name ++ "=>"
                 range := tag.nameRange
                 replacement := some (tag.name ++ "=") }
  | formula {x : TagArgument} {f : Formula} {i : Issue} (hx : x ∈ tag.arguments)
      (parsed : Formula.parse x.text = .ok f) (hi : i ∈ f.check ⟨s.operators, s.limit, false⟩) :
      TagIssue (i.shift x.range.start)
  | noFormula {x : TagArgument} {fault : Formula.Fault} {place : Nat} (hx : x ∈ tag.arguments)
      (parsed : Formula.parse x.text = .error fault)
      (e : place = x.range.start + min fault.offset x.text.length) :
      TagIssue { severity := .error, code := .formulaSyntax
                 text := "Invalid formula in tag argument: " ++ fault.message
                 range := ⟨place, max (min (place + 1) x.range.stop) place⟩ }

variable {s tag}

theorem Labelled.subset {label : String} {xs : List TagArgument}
    (h : Labelled s tag label spec xs) : xs ⊆ tag.arguments := by
  cases h with
  | tag h => exact List.Subset.refl _
  | command h hc e =>
    rw [e]
    exact subset_cons_self _ _

theorem TagIssue.of_formulaIssues {x : TagArgument} (hx : x ∈ tag.arguments)
    (hi : i ∈ formulaIssues s x) : TagIssue s tag i := by
  unfold formulaIssues at hi
  split at hi
  · next f parsed =>
    obtain ⟨j, hj, rfl⟩ := mem_map.1 hi
    exact .formula hx parsed hj
  · next fault parsed =>
    rw [mem_singleton.1 hi]
    exact .noFormula hx parsed rfl

theorem TagIssue.of_argumentIssues {label : String} {xs : List TagArgument}
    (h : Labelled s tag label spec xs) (hi : i ∈ argumentIssues s label spec tag xs) :
    TagIssue s tag i := by
  unfold argumentIssues at hi
  dsimp only at hi
  generalize (if xs.getLast?.any (·.isEmpty) = true then xs.length - 1 else xs.length) =
    counted at hi
  split at hi
  · rw [mem_singleton.1 hi]
    exact .tooMany h
  · split at hi
    · rw [mem_singleton.1 hi]
      exact .tooFew h
    · rcases mem_append.1 hi with hi | hi
      · split at hi
        · next hints =>
          rw [mem_singleton.1 hi]
          obtain ⟨hints, none⟩ := Bool.and_eq_true_iff.1 hints
          exact .style h hints (by simpa using none)
        · simp at hi
      · obtain ⟨⟨x, parameter⟩, hx, hi⟩ := mem_flatMap.1 hi
        split at hi
        · exact .of_formulaIssues (h.subset (of_mem_zip hx).1) hi
        · simp at hi

theorem TagIssue.of_commandIssues (h : s.schema.tags.findTag? tag.name = some spec)
    (hi : i ∈ commandIssues s tag) : TagIssue s tag i := by
  unfold commandIssues at hi
  split at hi
  · rw [mem_singleton.1 hi]
    exact .noCommand h
  · next first rest e =>
    split at hi
    · rw [mem_singleton.1 hi]
      exact .noCommand h
    · dsimp only at hi
      split at hi
      · next command hc => exact .of_argumentIssues (.command h hc e) hi
      · next hc =>
        rw [mem_singleton.1 hi]
        exact .unknownCommand (by simp [e]) rfl hc

theorem tagIssue_of_mem (hi : i ∈ tagIssues s tag) : TagIssue s tag i := by
  unfold tagIssues at hi
  split at hi
  · rw [mem_singleton.1 hi]
    exact .nested (.inl rfl)
  · rcases mem_append.1 hi with hi | hi
    · obtain ⟨x, hx, rfl⟩ := mem_map.1 hi
      exact .nested (.inr ⟨x, (mem_filter.1 hx).1, rfl⟩)
    · split at hi
      · next h =>
        rw [mem_singleton.1 hi]
        exact .unknown h
      · next spec h =>
        split at hi
        · exact .of_commandIssues h hi
        · exact .of_argumentIssues (.tag h) hi

end

end RichText

/-! ## Values -/

/-- What a value of a type that is one word is checked for, and how the issue names that. -/
inductive Expects : FieldType → Code → String → Prop
  | boolean : Expects .boolean .invalidBoolean "true or false"
  | integer : Expects .integer .invalidInteger "an integer"
  | float : Expects .float .invalidFloat "a number"
  | byte : Expects .byte .invalidByte "a whole number from 0 to 255"

section

variable (schema : Schema) (options : Options) (key value : String) (field : Field)

/-- A type that a value is checked for, as a whole or element by element. -/
def Field.IsOf (element : FieldType) : Prop :=
  field.type = element ∨ field.type = .list element

/-- The issues that the checks of a value can give. -/
inductive ValueIssue : Issue → Prop
  | formula {f : Formula} {i : Issue} (parsed : Formula.parse value = .ok f)
      (hi : i ∈ f.check ⟨schema.formulas.operators, options.maxDistance, field.allowsX⟩) :
      ValueIssue i
  | noFormula {fault : Formula.Fault} (parsed : Formula.parse value = .error fault) :
      ValueIssue { severity := .error, code := .formulaSyntax
                   text := "Formula syntax error: " ++ fault.message
                   range := ⟨min fault.offset value.length,
                     min (min fault.offset value.length + 1) value.length⟩ }
  | tag {tag : RichText.Tag} {i : Issue} (ht : field.type = .richText)
      (htag : .tag tag ∈ RichText.segments value)
      (hi : RichText.TagIssue ⟨schema.formulas.operators, schema.richText, options.maxDistance,
        options.styleHints⟩ tag i) : ValueIssue i
  | word {type : FieldType} {code : Code} {what : String} {piece : Piece}
      (ht : field.IsOf type) (he : Expects type code what)
      (hp : piece = trimmedPiece value ∨ piece ∈ components value) :
      ValueIssue (pieceIssue code ("'" ++ key ++ "' expects " ++ what ++ ", got '" ++
        String.ofList piece.text ++ "'") piece)
  | member {name : String} {piece : Piece} (ht : field.IsOf (.enumeration name))
      (hp : piece = trimmedPiece value ∨ piece ∈ components value) :
      ValueIssue (.ofUnknown options.maxDistance .invalidEnum
        ("'" ++ String.ofList piece.text ++ "' is not a member of " ++ name)
        (String.ofList piece.text) ((schema.objects.members? name).getD []) piece.range)
  | count {type : FieldType} {names : List String} {pieces : List Piece} {whole : CharRange}
      (ht : field.IsOf type) (hn : partNames? type = some names)
      (hw : whole = (trimmedPiece value).range ∨
        ∃ group ∈ chunks names.length (components value), whole = piecesRange group) :
      ValueIssue { severity := .error, code := partsCode type
                   text := "'" ++ key ++ "' expects " ++ toString names.length
                     ++ " comma-separated components (" ++ ",".intercalate names ++ ") but got "
                     ++ toString pieces.length
                   range := whole }
  | groups {type : FieldType} {names : List String} (ht : field.type = .list type)
      (hn : partNames? type = some names) :
      ValueIssue { severity := .error, code := partsCode type
                   text := "'" ++ key ++ "' expects groups of " ++ toString names.length
                     ++ " components (" ++ ",".intercalate names ++ ") but got "
                     ++ toString (components value).length ++ " values"
                   range := (trimmedPiece value).range }
  | component {type : FieldType} {names : List String} {piece : Piece} {name : String}
      (ht : field.IsOf type) (hn : partNames? type = some names) (hp : piece ∈ components value)
      (hname : name ∈ names) :
      ValueIssue (pieceIssue (partsCode type)
        (name ++ " component of '" ++ key ++ "' must be "
          ++ (if type = .rectangle then "an integer" else "a number")
          ++ ", got '" ++ String.ofList piece.text ++ "'") piece)

variable {schema options key value field}

theorem ValueIssue.of_scalarIssue (ht : field.IsOf type) {piece : Piece}
    (hp : piece = trimmedPiece value ∨ piece ∈ components value)
    (hi : scalarIssue? schema.objects options.maxDistance key piece type = some i) :
    ValueIssue schema options key value field i := by
  have word {valid : Prop} [Decidable valid] {code : Code} {what : String}
      (he : Expects type code what)
      (e : (if valid then none else some (pieceIssue code ("'" ++ key ++ "' expects " ++ what
        ++ ", got '" ++ String.ofList piece.text ++ "'") piece)) = some i) :
      ValueIssue schema options key value field i := by
    rw [← Option.some.inj (Option.ite_none_left_eq_some.1 e).2]
    exact .word ht he hp
  unfold scalarIssue? at hi
  split at hi
  case h_1 => exact word .boolean hi
  case h_2 => exact word .integer hi
  case h_3 => exact word .float hi
  case h_4 => exact word .byte hi
  case h_5 name =>
    rw [← Option.some.inj (Option.ite_none_left_eq_some.1 hi).2]
    exact .member ht hp
  case h_6 => cases hi

theorem ValueIssue.of_compositeIssues (ht : field.IsOf type) {names : List String}
    (hn : partNames? type = some names) {pieces : List Piece} (hp : pieces ⊆ components value)
    {whole : CharRange}
    (hw : whole = (trimmedPiece value).range ∨
        ∃ group ∈ chunks names.length (components value), whole = piecesRange group)
    (hi : i ∈ compositeIssues key type names pieces whole) :
    ValueIssue schema options key value field i := by
  unfold compositeIssues at hi
  split at hi
  · rw [mem_singleton.1 hi]
    exact .count ht hn hw
  · obtain ⟨⟨piece, name⟩, hmem, e⟩ := mem_filterMap.1 hi
    obtain ⟨hpiece, hname⟩ := of_mem_zip hmem
    rw [← Option.some.inj (Option.ite_none_left_eq_some.1 e).2]
    simpa using ValueIssue.component ht hn (hp hpiece) hname

theorem chunks_sublist {n : Nat} {pieces group : List Piece} (h : group ∈ chunks n pieces) :
    group.Sublist pieces := by
  fun_induction chunks n pieces with
  | case1 => simp at h
  | case2 pieces hn ih =>
    rcases mem_cons.1 h with rfl | h
    · exact take_sublist n pieces
    · exact (ih h).trans (drop_sublist n pieces)

theorem ValueIssue.of_listIssues (ht : field.type = .list type)
    (hi : i ∈ listIssues schema.objects options.maxDistance key value type) :
    ValueIssue schema options key value field i := by
  unfold listIssues at hi
  dsimp only at hi
  split at hi
  · next names hn =>
    split at hi
    · rw [mem_singleton.1 hi]
      exact .groups ht hn
    · obtain ⟨group, hg, hi⟩ := mem_flatMap.1 hi
      exact .of_compositeIssues (.inr ht) hn (chunks_sublist hg).subset (.inr ⟨group, hg, rfl⟩) hi
  · obtain ⟨piece, hp, hi⟩ := mem_filterMap.1 hi
    exact .of_scalarIssue (.inr ht) (.inr (mem_filter.1 hp).1) hi

theorem valueIssue_of_mem (hi : i ∈ valueIssues schema options key value field) :
    ValueIssue schema options key value field i := by
  unfold valueIssues at hi
  split at hi
  · simp at hi
  · unfold typedIssues at hi
    split at hi
    · unfold formulaValueIssues at hi
      split at hi
      · next f parsed => exact .formula parsed hi
      · next fault parsed =>
        rw [mem_singleton.1 hi]
        exact .noFormula parsed
    · next ht =>
      obtain ⟨segment, hs, hi⟩ := mem_flatMap.1 hi
      cases segment with
      | text source range => simp at hi
      | tag tag => exact .tag ht hs (RichText.tagIssue_of_mem hi)
    · next type ht => exact .of_listIssues ht hi
    · split at hi
      · next names hn =>
        exact .of_compositeIssues (.inl rfl) hn (List.Subset.refl _) (.inl rfl) hi
      · exact .of_scalarIssue (.inl rfl) (.inl rfl) (Option.mem_toList.1 hi)

end

end ModCheck
