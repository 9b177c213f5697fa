import ModCheck.Proofs.CallUsages
import ModCheck.Proofs.FormulaLayout
import ModCheck.Proofs.ValueRanges

/-
  Line feeds in the texts of issues. A text is put together from fixed words, numbers, names of the
  schema, names that are written in the value and parts of the value. Words of a formula have no
  line feed, so a line feed comes from a name of the schema (`Explained`) or from a part of the
  value that the issue repeats in quotes (`Issue.Repeats`). Main statement: `ValueIssue.traced`.
-/

namespace ModCheck

open List
open Text (Piece)

/-! ## Texts put together -/

/-- If a text has a line feed, it holds a name that has one. -/
def Explained (names : String → Prop) (text : String) : Prop :=
  '\n' ∈ text.toList → ∃ name, names name ∧ '\n' ∈ name.toList ∧ name.toList <:+: text.toList

section

variable {names names' : String → Prop} {text more : String}

theorem explained_of_not_mem (h : '\n' ∉ text.toList) : Explained names text :=
  fun hmem => absurd hmem h

theorem explained_name {name : String} (h : names name) : Explained names name :=
  fun hmem => ⟨name, h, hmem, infix_refl _⟩

theorem Explained.mono (h : ∀ name, names name → names' name) (explained : Explained names text) :
    Explained names' text := by
  intro hmem
  obtain ⟨name, hname, held⟩ := explained hmem
  exact ⟨name, h name hname, held⟩

theorem Explained.append (first : Explained names text) (second : Explained names more) :
    Explained names (text ++ more) := by
  intro hmem
  rw [String.toList_append] at hmem ⊢
  rcases mem_append.1 hmem with hmem | hmem
  · obtain ⟨name, hname, hbreak, held⟩ := first hmem
    exact ⟨name, hname, hbreak, held.trans (prefix_append _ _).isInfix⟩
  · obtain ⟨name, hname, hbreak, held⟩ := second hmem
    exact ⟨name, hname, hbreak, held.trans (suffix_append _ _).isInfix⟩

theorem Explained.before (first : Explained names text) (h : '\n' ∉ more.toList) :
    Explained names (text ++ more) :=
  first.append (explained_of_not_mem h)

theorem Explained.between {first last : String} (h : Explained names text)
    (hfirst : '\n' ∉ first.toList) (hlast : '\n' ∉ last.toList) :
    Explained names (first ++ text ++ last) :=
  ((explained_of_not_mem hfirst).append h).before hlast

theorem explained_intercalate {separator : String} (h : '\n' ∉ separator.toList)
    {texts : List String} (each : ∀ text ∈ texts, Explained names text) :
    Explained names (separator.intercalate texts) := by
  induction texts with
  | nil => exact explained_of_not_mem (by simp)
  | cons text texts ih =>
    obtain ⟨first, others⟩ := forall_mem_cons.1 each
    cases texts with
    | nil => simpa using first
    | cons next texts =>
      rw [String.intercalate_cons_cons]
      exact (first.before h).append (ih others)

@[simp]
theorem not_mem_toDigits (n : Nat) : '\n' ∉ Nat.toDigits 10 n := by
  intro hmem
  exact absurd (Nat.isDigit_of_mem_toDigits (by decide) (by decide) hmem) (by decide)

theorem not_mem_toString (n : Nat) : '\n' ∉ (toString n).toList := by
  simp

end

/-! ## Words of a formula -/

namespace Formula

variable {ts : List Token} {xs : List Argument}

/-- Tokens on one line each. -/
def OneLined (ts : List Token) : Prop :=
  ∀ t ∈ ts, '\n' ∉ t.text.toList

theorem oneLined_scan {text : String} (h : scan text = .ok ts) : OneLined ts := by
  intro t ht hmem
  obtain ⟨longest, -⟩ := (scans_iff.1 h).longest rfl t ht
  have visible := (longest.token.isTokenChar _ hmem).visible
  exact absurd visible (by decide)

/-- What is wrong with a text that is no formula is said on one line. -/
theorem not_mem_message {text : String} {fault : Fault} (h : parse text = .error fault) :
    '\n' ∉ fault.message.toList := by
  unfold parse at h
  split at h
  · next fault' scanned =>
    obtain rfl := Except.error.inj h
    obtain ⟨before, c, rest, -, e, rfl, visible, -⟩ := tokensFrom_error scanned
    have hc : '\n' ≠ c := by
      rintro rfl
      exact absurd visible (by decide)
    unfold Fault.message
    simp [hc]
  · next ts scanned =>
    rcases (ofTokens_outcome _ ts).2 fault h with rfl | raised
    · decide
    · have named := raised.named
      unfold Fault.message
      cases fault with
      | unexpectedToken word offset =>
        obtain ⟨t, ht, rfl⟩ := named
        simp [oneLined_scan scanned t ht]
      | missingArgument delimiter offset =>
        rcases named with rfl | rfl <;> simp
      | unexpectedChar c offset => exact absurd named id
      | invalidNumber word offset => exact absurd named id
      | _ => simp

/-- An argument on one line, behind a delimiter that is no line feed. -/
structure ArgumentOneLine (x : Argument) : Prop where
  text : '\n' ∉ x.text.toList
  delimiter : '\n' ≠ x.delimiter

/-- A call with its name and each argument on one line. -/
structure CallOneLine (call : Call) : Prop where
  name : '\n' ∉ call.name.toList
  arguments : ∀ x ∈ call.arguments, ArgumentOneLine x

theorem ArgumentWritten.oneLine {x : Argument} (h : ArgumentWritten x ts)
    (lined : OneLined ts) : ArgumentOneLine x := by
  have delimiter {d : Token} {c : Char} (sign : delimiter? d = some c) : '\n' ≠ c := by
    rcases delimiter?_eq_some sign with rfl | rfl <;> decide
  cases h with
  | @number d t c value sign => exact ⟨lined t (by simp), delimiter sign⟩
  | @name d t c sign => exact ⟨lined t (by simp), delimiter sign⟩
  | @negative d m t c value sign =>
    exact ⟨by simpa using lined t (by simp), delimiter sign⟩

theorem ArgumentsWritten.oneLine (h : ArgumentsWritten xs ts) (lined : OneLined ts) :
    ∀ x ∈ xs, ArgumentOneLine x := by
  induction h with
  | nil => simp
  | cons first rest ih =>
    obtain ⟨here, behind⟩ := forall_mem_append.1 lined
    exact forall_mem_cons.2 ⟨first.oneLine here, ih behind⟩

theorem ChainWritten.oneLine {nameEnd chainEnd : Nat} (h : ChainWritten nameEnd xs chainEnd ts)
    (lined : OneLined ts) : ∀ x ∈ xs, ArgumentOneLine x := by
  cases h with
  | absent => simp
  | bare colon => simp
  | full colon written => exact written.oneLine lined

/-! ## Issues of a formula -/

/-- The operators that a call can be held against: those of the schema and their sub-operators. -/
inductive Reached (operators : NameTable Operator) : Operator → Prop
  | operator {key : String} {op : Operator} (found : operators.find? key = some op) :
      Reached operators op
  | sub {key word : String} {owner op : Operator} (found : operators.find? key = some owner)
      (chosen : owner.subTable.find? word = some op) : Reached operators op

/-- The names of a schema that the texts about calls hold. -/
inductive Names (operators : NameTable Operator) : String → Prop
  | operator {op : Operator} (h : Reached operators op) : Names operators op.name
  | argument {op : Operator} {usage : Usage} {spec : ArgumentSpec} (h : Reached operators op)
      (hu : usage ∈ op.usages) (hs : spec ∈ usage) : Names operators spec.name

section

variable {operators : NameTable Operator} {op target : Operator} {call : Call} {label : String}
  {xs : List Argument} (found : operators.find? call.name = some op)
  (h : addressee operators op call = .operator target label xs)
include found h

/-- Whose arguments a call has, and how that is named: by the call, or with a sub-operator. -/
theorem addressee_target : Reached operators target ∧
    (label = call.name ∨ label = call.name ++ ":" ++ target.name) := by
  rcases addressee_cases operators op with ⟨owner, declared, choose⟩ | none | own
  · obtain ⟨rfl, first, -, -, chosen⟩ :=
      chooseSubOperator_eq_operator ((choose call).symm.trans h)
    rcases declared with rfl | ⟨key, declared⟩
    · exact ⟨.sub found chosen, Or.inr rfl⟩
    · exact ⟨.sub declared chosen, Or.inr rfl⟩
  · simp [none] at h
  · rw [own] at h
    obtain ⟨rfl, rfl, -⟩ := Addressee.operator.inj h
    exact ⟨.operator found, Or.inl rfl⟩

theorem explained_label (hname : '\n' ∉ call.name.toList) : Explained (Names operators) label := by
  obtain ⟨reached, rfl | rfl⟩ := addressee_target found h
  · exact explained_of_not_mem hname
  · exact (explained_of_not_mem (by simp [hname])).append (explained_name (.operator reached))

theorem explained_argument {n : Nat} {hasFormula : Bool} {usage : Usage}
    (hu : target.usageWith? n hasFormula = some usage) {spec : ArgumentSpec}
    (hs : spec ∈ plainArguments usage) : Explained (Names operators) spec.name :=
  explained_name (.argument (addressee_target found h).1 (Operator.usageWith?_eq_some hu).1
    (mem_filter.1 hs).1)

end

theorem explained_countPhrase {names : String → Prop} (arities : List Nat) :
    Explained names (countPhrase arities) := by
  have each : ∀ text ∈ (arities.map toString).reverse, Explained names text := by
    intro text h
    obtain ⟨n, -, rfl⟩ := mem_map.1 (mem_reverse.1 h)
    exact explained_of_not_mem (not_mem_toString n)
  refine Explained.before (Explained.before ?_ (by simp)) (by split <;> simp)
  split
  · exact explained_of_not_mem (by decide)
  · next only e => exact each only (by simp [e])
  · next last init _ e =>
    rw [e] at each
    obtain ⟨here, others⟩ := forall_mem_cons.1 each
    refine ((explained_intercalate (by simp) fun text h => ?_).before (by simp)).append here
    exact others text (mem_reverse.1 h)

/-- The name that a body is made of has no line feed. -/
def BodyOneLine (body : Body) : Prop :=
  ∀ name span, body.formula = .variable name span → '\n' ∉ name.toList

theorem BodyOneLine.argument {body : Body} (h : BodyOneLine body)
    (word : (bodyArgument body).isNumber = false) : '\n' ∉ (bodyArgument body).text.toList := by
  unfold bodyArgument at word ⊢
  split at word
  · next text isNumber e =>
    obtain rfl : isNumber = false := word
    unfold plainBody? at e
    split at e
    · simp at e
    · simp at e
    · next name span hf =>
      obtain ⟨rfl, -⟩ := Prod.mk.inj (Option.some.inj e)
      exact h _ _ hf
    · simp at e
  · simp at word

/-- A line feed in the text about a call comes from a name of the schema. -/
theorem CallIssue.explained {s : Checker} {call : Call} {body : Option Body} {i : Issue}
    (hi : CallIssue s call body i) (h : CallOneLine call)
    (hbody : ∀ b ∈ body, BodyOneLine b ∧ ∀ i ∈ b.issues, Explained (Names s.operators) i.text) :
    Explained (Names s.operators) i.text := by
  induction hi with
  | unknown => exact explained_of_not_mem (by simp [Issue.ofUnknown, h.name])
  | style _ ht =>
    rcases ht with rfl | rfl <;> exact explained_of_not_mem (by simp [operatorIssue, h.name])
  | delimiter _ hx =>
    have sign := (h.arguments _ hx).delimiter
    exact explained_of_not_mem (by simp [h.name, sign])
  | noSubOperator => exact explained_of_not_mem (by simp [operatorIssue, h.name])
  | unknownSubOperator hop e =>
    have first := (h.arguments _ (addressee_unknown hop e).1).text
    exact explained_of_not_mem (by simp [Issue.ofUnknown, h.name, first])
  | @numeric call body op target label text xs x n hasFormula usage spec hop e hx word hu hs ht =>
    have hlabel := explained_label hop e h.name
    have hspec := explained_argument hop e hu hs
    have hx : '\n' ∉ x.text.toList := by
      rcases hx with hx | ⟨b, hb, rfl⟩
      · exact (h.arguments _ ((addressee_suffix e).subset hx)).text
      · exact (hbody b hb).1.argument word
    rcases ht with rfl | rfl
    · exact ((hspec.between (by simp) (by simp)).append hlabel).before (by simp)
    · refine ((((hspec.between ?_ ?_).append hlabel).before ?_).before hx).before ?_ <;> simp
  | noBody hop e => exact (explained_label hop e h.name).between (by simp) (by simp)
  | arity hop e =>
    refine Explained.before (Explained.before (Explained.append ?_ (explained_countPhrase _)) ?_)
      (not_mem_toString _)
    · exact (explained_label hop e h.name).between (by simp) (by simp)
    · simp
  | expression hop e => exact (explained_label hop e h.name).between (by simp) (by simp)
  | misplaced _ e _ hextra =>
    have extra := (h.arguments _ ((addressee_suffix e).subset hextra)).text
    exact explained_of_not_mem (by simp [extra])
  | @inner _ _ _ _ _ _ xs n _ _ e _ e' _ ih =>
    have leftOver := ((drop_suffix n xs).trans (addressee_suffix e)).subset
    obtain ⟨head, rest, hxs, -, rfl⟩ := surplus_eq_call e'
    rw [hxs] at leftOver
    refine ih ⟨?_, fun x hx => h.arguments x (leftOver (mem_cons_of_mem _ hx))⟩ (by simp)
    exact (h.arguments head (leftOver mem_cons_self)).text
  | body hb hi => exact (hbody _ hb).2 _ hi

/-- A line feed in the text about a formula comes from a name of the schema. -/
theorem explained_check (s : Checker) {level : Level} {f : Formula}
    (h : Written level f ts) (lined : OneLined ts) :
    (∀ name span, f = .variable name span → '\n' ∉ name.toList) ∧
      ∀ i ∈ f.check s, Explained (Names s.operators) i.text := by
  induction h with
  | literal kind => simp [check]
  | @name t kind => simpa [check] using lined t (by simp)
  | negation minus operand ih => exact ⟨by simp, (ih (forall_mem_cons.1 lined).2).2⟩
  | @chain name xs chainEnd ts kind chain called =>
    obtain ⟨hname, behind⟩ := forall_mem_cons.1 lined
    exact ⟨by simp, fun i hi =>
      (callIssue_of_mem hi).explained ⟨hname, chain.oneLine behind⟩ (by simp)⟩
  | @applied name opening closing xs chainEnd body ts us kind chain noBare opens inner closes ih =>
    obtain ⟨hname, behind⟩ := forall_mem_cons.1 lined
    obtain ⟨hchain, behind⟩ := forall_mem_append.1 behind
    have hbody := ih (forall_mem_append.1 (forall_mem_cons.1 behind).2).1
    refine ⟨by simp, fun i hi =>
      (callIssue_of_mem hi).explained ⟨hname, chain.oneLine hchain⟩ ?_⟩
    simpa [BodyOneLine] using hbody
  | ofBelow upper part ih => exact ih lined
  | joined first operator second ih₁ ih₂ =>
    obtain ⟨left, behind⟩ := forall_mem_append.1 lined
    refine ⟨by simp [join], forall_mem_append.2 ⟨(ih₁ left).2, ?_⟩⟩
    exact (ih₂ (forall_mem_cons.1 behind).2).2

theorem explained_parse {text : String} {f : Formula} (h : parse text = .ok f) (s : Checker) :
    ∀ i ∈ f.check s, Explained (Names s.operators) i.text := by
  obtain ⟨ts, scanned, written, -⟩ := parse_written h
  exact (explained_check s written (oneLined_scan scanned)).2

end Formula

/-! ## Issues of a value -/

/-- The names of a schema that messages hold. -/
inductive Schema.Names (schema : Schema) : String → Prop
  | formula {name : String} (h : Formula.Names schema.formulas.operators name) : Names schema name
  | parent {key : String} {type : ObjectType} {name : String}
      (ht : schema.objects.type? key = some type) (h : name ∈ type.parents) : Names schema name
  | fieldType {key base : String} {c : ObjectClass} {field : Field}
      (hc : schema.objects.classOfType? key = some c) (hf : c.field? base = some field) :
      Names schema field.type.display
  | enumeration {key base : String} {c : ObjectClass} {field : Field} {name : String}
      (hc : schema.objects.classOfType? key = some c) (hf : c.field? base = some field)
      (h : field.IsOf (.enumeration name)) : Names schema name
  /-- A tag may go by several names. -/
  | tag {name : String} {spec : TagSpec} (h : schema.richText.tags.findTag? name = some spec)
      {used : String} (hu : used = name ∨ used = spec.name) : Names schema used
  | command {key : String} {spec : TagSpec}
      (h : schema.richText.commands.findTag? key = some spec) : Names schema spec.name

/-- The checks that repeat a part of a value as it is written. -/
def Code.repeats : Code → Bool
  | .invalidBoolean | .invalidInteger | .invalidFloat | .invalidByte => true
  | .invalidVector | .invalidRectangle | .invalidEnum => true
  | .unknownTag | .unknownCommand | .duplicateId => true
  | _ => false

/-- An issue that repeats the part of a value at its range, in quotes. -/
structure Issue.Repeats (i : Issue) (value part : List Char) : Prop where
  code : i.code.repeats = true
  here : i.range.Holds value part
  quoted : ∃ before after, i.text = before ++ "'" ++ String.ofList part ++ "'" ++ after

/-- Where a line feed in the text of an issue comes from: a part of the value that it repeats, or a
name of the schema. -/
def Issue.Traced (schema : Schema) (value : List Char) (i : Issue) : Prop :=
  '\n' ∈ i.text.toList → (∃ part, '\n' ∈ part ∧ i.Repeats value part) ∨
    ∃ name, schema.Names name ∧ '\n' ∈ name.toList ∧ name.toList <:+: i.text.toList

section

variable {schema : Schema} {value : String} {i : Issue}

theorem traced_of_explained (h : Explained schema.Names i.text) : i.Traced schema value.toList :=
  fun hmem => Or.inr (h hmem)

theorem traced_of_not_mem (h : '\n' ∉ i.text.toList) : i.Traced schema value.toList :=
  fun hmem => absurd hmem h

theorem traced_of_formula (h : Explained (Formula.Names schema.formulas.operators) i.text) :
    i.Traced schema value.toList :=
  traced_of_explained (h.mono fun _ => .formula)

theorem traced_of_quoted {part : List Char} (before after : String) (code : i.code.repeats = true)
    (here : i.range.Holds value.toList part)
    (text : i.text = before ++ "'" ++ String.ofList part ++ "'" ++ after)
    (hbefore : '\n' ∉ before.toList) (hafter : Explained schema.Names after) :
    i.Traced schema value.toList := by
  intro hmem
  by_cases hpart : '\n' ∈ part
  · exact Or.inl ⟨part, hpart, code, here, before, after, text⟩
  · refine Or.inr ((text ▸ Explained.append (explained_of_not_mem ?_) hafter) hmem)
    simp [hbefore, hpart]

end

namespace RichText

variable {schema : Schema} {value : String} {limit : Nat} {hints : Bool} {tag : Tag}

theorem Labelled.explained {label : String} {spec : TagSpec} {xs : List TagArgument}
    (h : Labelled ⟨schema.formulas.operators, schema.richText, limit, hints⟩ tag label spec xs) :
    Explained schema.Names label ∧ Explained schema.Names tag.name := by
  cases h with
  | tag h => exact ⟨explained_name (.tag h (.inr rfl)), explained_name (.tag h (.inl rfl))⟩
  | command h hc =>
    have name := explained_name (Schema.Names.tag h (.inl rfl))
    exact ⟨(name.before (by simp)).append (explained_name (.command hc)), name⟩

theorem explained_count {names : String → Prop} {label verb : String} (h : Explained names label)
    (hverb : '\n' ∉ verb.toList) (n m : Nat) :
    Explained names ("'" ++ label ++ verb ++ toString n ++ " " ++ countNoun n ++ " but got "
      ++ toString m) := by
  have counts : '\n' ∉ (toString n ++ " " ++ countNoun n ++ " but got " ++ toString m).toList := by
    unfold countNoun
    split <;> simp
  simpa only [String.append_assoc] using (h.between (by simp) hverb).before counts

theorem TagIssue.traced {i : Issue}
    (hi : TagIssue ⟨schema.formulas.operators, schema.richText, limit, hints⟩ tag i)
    (h : TagHeld value tag) : i.Traced schema value.toList := by
  cases hi with
  | nested => exact traced_of_not_mem (by simp [bracketIssue])
  | unknown =>
    by_cases empty : tag.name = ""
    · exact traced_of_not_mem (by simp [Issue.ofUnknown, empty])
    · refine traced_of_quoted "Unknown tag " "" rfl h.name ?_ (by simp)
        (explained_of_not_mem (by simp))
      simp [Issue.ofUnknown, empty]
  | noCommand h =>
    exact traced_of_explained ((explained_name (.tag h (.inl rfl))).between (by simp) (by simp))
  | @unknownCommand first piece hx e =>
    subst e
    have here : (Piece.mk first.text.toList first.range).range.Holds value.toList
        first.text.toList := h.arguments first hx
    refine traced_of_quoted "Unknown command " "" rfl here.trim ?_ (by simp)
      (explained_of_not_mem (by simp))
    simp [Issue.ofUnknown]
  | tooMany h => exact traced_of_explained (explained_count h.explained.1 (by simp) _ _)
  | tooFew h => exact traced_of_explained (explained_count h.explained.1 (by simp) _ _)
  | style h => exact traced_of_explained (h.explained.2.between (by simp) (by simp))
  | formula hx parsed hi => exact traced_of_formula (Formula.explained_parse parsed _ _ hi)
  | noFormula hx parsed =>
    exact traced_of_not_mem (by simp [Formula.not_mem_message parsed])

end RichText

section

variable {schema : Schema} {options : Options} {key value : String} {field : Field}

theorem partNames_oneLine {type : FieldType} {names : List String}
    (h : partNames? type = some names) :
    '\n' ∉ (",".intercalate names).toList ∧ ∀ name ∈ names, '\n' ∉ name.toList := by
  unfold partNames? at h
  split at h
  case h_5 => cases h
  all_goals
    obtain rfl := Option.some.inj h
    simp

/-- A line feed in the text about a value comes from a part of it that the issue repeats or from a
name of the schema. -/
theorem ValueIssue.traced {i : Issue} (hi : ValueIssue schema options key value field i)
    (hkey : '\n' ∉ key.toList)
    (members : ∀ name, field.IsOf (.enumeration name) → schema.Names name) :
    i.Traced schema value.toList := by
  have held {piece : Piece} (hp : piece = trimmedPiece value ∨ piece ∈ components value) :
      piece.range.Holds value.toList piece.text := by
    rcases hp with rfl | hp
    · exact trimmedPiece_holds value
    · exact components_hold value piece hp
  cases hi with
  | formula parsed hi => exact traced_of_formula (Formula.explained_parse parsed _ _ hi)
  | noFormula parsed =>
    exact traced_of_not_mem (by simp [Formula.not_mem_message parsed])
  | tag _ htag hi => exact hi.traced (RichText.tagHeld_of_mem htag)
  | @word type code what piece ht he hp =>
    refine traced_of_quoted ("'" ++ key ++ "' expects " ++ what ++ ", got ") ""
      (by cases he <;> rfl) (held hp) ?_ (by cases he <;> simp [hkey])
      (explained_of_not_mem (by simp))
    simp [pieceIssue, ← String.toList_inj]
  | @member name piece ht hp =>
    refine traced_of_quoted "" (" is not a member of " ++ name) rfl (held hp) ?_ (by simp) ?_
    · simp [Issue.ofUnknown, ← String.toList_inj]
    · exact (explained_of_not_mem (by simp)).append (explained_name (members name ht))
  | count ht hn =>
    have joined := (partNames_oneLine hn).1
    exact traced_of_not_mem (by simp [-String.toList_intercalate, hkey, joined])
  | groups ht hn =>
    have joined := (partNames_oneLine hn).1
    exact traced_of_not_mem (by simp [-String.toList_intercalate, hkey, joined])
  | @component type names piece name ht hn hp hname =>
    have hname := (partNames_oneLine hn).2 name hname
    refine traced_of_quoted (name ++ " component of '" ++ key ++ "' must be "
      ++ (if type = .rectangle then "an integer" else "a number") ++ ", got ") ""
      ?_ (held (.inr hp)) ?_ ?_ (explained_of_not_mem (by simp))
    · dsimp only [partsCode]
      split <;> rfl
    · simp [pieceIssue, ← String.toList_inj]
    · split <;> simp [hname, hkey]

end

end ModCheck
