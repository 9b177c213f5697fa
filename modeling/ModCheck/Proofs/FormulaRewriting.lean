import Mathlib.Data.List.Nodup
import ModCheck.Proofs.FormulaAcceptance
import ModCheck.Proofs.FormulaLexing

/-
  Formulas with one name or delimiter written anew. The names, arguments and delimiters of a formula
  start at different characters, so a character tells which of them is meant (`Formula.writeAt`).
  The formula with a new token there is written in the tokens of the old one with the new token in
  the place of those it covers (`Written.splice`), and this is what the new text is read as
  (`parse_replace`).
-/

namespace ModCheck

open List

/-! ## Writing at a character, and moving -/

/-- An argument with `text` in the place of the word or the delimiter that starts at character
`p`. -/
def Argument.writeAt (p : Nat) (text : String) (x : Argument) : Argument :=
  { x with
    text := if x.span.start = p then text else x.text
    isNumber := if x.span.start = p then false else x.isNumber
    delimiter := if x.delimiterOffset = p then text.toList.headD ':' else x.delimiter }

def Call.writeAt (p : Nat) (text : String) (call : Call) : Call :=
  { call with
    name := if call.nameSpan.start = p then text else call.name
    arguments := call.arguments.map (·.writeAt p text) }

/-- An argument with new numbers for its characters. -/
def Argument.mapPos (m : Nat → Nat) (x : Argument) : Argument :=
  { x with span := x.span.mapPos m, delimiterOffset := m x.delimiterOffset }

def Call.mapPos (m : Nat → Nat) (call : Call) : Call :=
  ⟨call.name, call.nameSpan.mapPos m, call.arguments.map (·.mapPos m), call.span.mapPos m⟩

namespace Formula

variable {c : Call × Bool} {chainEnd nameEnd : Nat} {f : Formula} {level : Level} {t : Token}
  {text : String} {ts ts' us : List Token} {x : Argument} {xs : List Argument}

/-- A formula with other calls and other spans. -/
def mapCalls (onCall : Call → Call) (onSpan : CharRange → CharRange) : Formula → Formula
  | .literal value span => .literal value (onSpan span)
  | .variable name span => .variable name (onSpan span)
  | .negation operand span => .negation (operand.mapCalls onCall onSpan) (onSpan span)
  | .binary op left right span =>
    .binary op (left.mapCalls onCall onSpan) (right.mapCalls onCall onSpan) (onSpan span)
  | .chain call => .chain (onCall call)
  | .applied call body bodySpan =>
    .applied (onCall call) (body.mapCalls onCall onSpan) (onSpan bodySpan)

/-- A formula with `text` in the place of the name, the argument or the delimiter that starts at
character `p`. -/
def writeAt (p : Nat) (text : String) : Formula → Formula :=
  mapCalls (·.writeAt p text) id

/-- A formula with new numbers for its characters. -/
def mapPos (m : Nat → Nat) : Formula → Formula :=
  mapCalls (·.mapPos m) (·.mapPos m)

/-- A formula without its places in the text. -/
def bare : Formula → Formula :=
  mapPos fun _ => 0

/-- The calls of a formula, and which of them have a body. -/
def calls : Formula → List (Call × Bool)
  | .literal _ _ => []
  | .variable _ _ => []
  | .negation operand _ => operand.calls
  | .binary _ left right _ => left.calls ++ right.calls
  | .chain call => [(call, false)]
  | .applied call body _ => (call, true) :: body.calls

def argumentMarks (x : Argument) : List Nat :=
  [x.delimiterOffset, x.span.start]

def callMarks (call : Call) : List Nat :=
  call.nameSpan.start :: call.arguments.flatMap argumentMarks

/-- Where the names, the delimiters and the arguments of a formula start. -/
def marks (f : Formula) : List Nat :=
  f.calls.flatMap fun c => callMarks c.1

section

variable {onCall : Call → Call} {onSpan : CharRange → CharRange}

theorem calls_mapCalls (f : Formula) :
    (f.mapCalls onCall onSpan).calls = f.calls.map fun c => (onCall c.1, c.2) := by
  induction f with
  | literal value span => rfl
  | «variable» name span => rfl
  | negation operand span ih => exact ih
  | binary op left right span ihl ihr =>
    rw [mapCalls, calls, calls, ihl, ihr, map_append]
  | chain call => rfl
  | applied call body span ih => rw [mapCalls, calls, calls, ih, map_cons]

theorem endsInColon_mapCalls (h : ∀ call, (onCall call).arguments = [] ↔ call.arguments = [])
    (f : Formula) : (f.mapCalls onCall onSpan).endsInColon = f.endsInColon := by
  induction f with
  | literal value span => rfl
  | «variable» name span => rfl
  | negation operand span ih => exact ih
  | binary op left right span ihl ihr => exact ihr
  | chain call =>
    rw [mapCalls, endsInColon, endsInColon, Bool.eq_iff_iff, List.isEmpty_iff, List.isEmpty_iff, h]
  | applied call body span ih => rfl

/-- Whether something is subtracted behind a colon is left as it is, if no call gains or loses all
arguments. -/
theorem undivided_mapCalls (h : ∀ call, (onCall call).arguments = [] ↔ call.arguments = [])
    (undivided : ∀ g ∈ f.nodes, g.Undivided) :
    ∀ g ∈ (f.mapCalls onCall onSpan).nodes, g.Undivided := by
  induction f with
  | literal value span => simp [mapCalls, nodes, Undivided]
  | «variable» name span => simp [mapCalls, nodes, Undivided]
  | negation operand span ih =>
    obtain ⟨-, inner⟩ := forall_mem_cons.1 undivided
    exact forall_mem_cons.2 ⟨trivial, ih inner⟩
  | binary op left right span ihl ihr =>
    obtain ⟨top, inner⟩ := forall_mem_cons.1 undivided
    obtain ⟨first, second⟩ := forall_mem_append.1 inner
    refine forall_mem_cons.2 ⟨?_, forall_mem_append.2 ⟨ihl first, ihr second⟩⟩
    cases op with
    | subtract => exact (endsInColon_mapCalls h left).trans top
    | _ => trivial
  | chain call => simp [mapCalls, nodes, Undivided]
  | applied call body span ih =>
    obtain ⟨-, inner⟩ := forall_mem_cons.1 undivided
    exact forall_mem_cons.2 ⟨trivial, ih inner⟩

end

theorem span_writeAt (p : Nat) (text : String) (f : Formula) :
    (f.writeAt p text).span = f.span := by
  cases f <;> rfl

theorem span_mapPos (m : Nat → Nat) (f : Formula) : (f.mapPos m).span = f.span.mapPos m := by
  cases f <;> rfl

theorem join_writeAt (p : Nat) (text : String) (op : BinaryOperator) (left right : Formula) :
    (join op left right).writeAt p text = join op (left.writeAt p text) (right.writeAt p text) := by
  unfold join
  rw [span_writeAt, span_writeAt]
  rfl

theorem join_mapPos (m : Nat → Nat) (op : BinaryOperator) (left right : Formula) :
    (join op left right).mapPos m = join op (left.mapPos m) (right.mapPos m) := by
  unfold join
  rw [span_mapPos, span_mapPos]
  rfl

theorem bare_call (m : Nat → Nat) (call : Call) :
    (call.mapPos m).mapPos (fun _ => 0) = call.mapPos fun _ => 0 := by
  simp only [Call.mapPos, map_map]
  rfl

theorem bare_mapPos (m : Nat → Nat) (f : Formula) : (f.mapPos m).bare = f.bare := by
  induction f with
  | literal value span => rfl
  | «variable» name span => rfl
  | negation operand span ih => exact congrArg (Formula.negation · _) ih
  | binary op left right span ihl ihr => exact congrArg₂ (Formula.binary op · · _) ihl ihr
  | chain call => exact congrArg Formula.chain (bare_call m call)
  | applied call body span ih => exact congrArg₂ (Formula.applied · · _) (bare_call m call) ih

/-! ## Tokens elsewhere -/

section

variable (m : Nat → Nat)

theorem ArgumentWritten.mapPos (h : ArgumentWritten x ts) :
    ArgumentWritten (x.mapPos m) (ts.map (·.mapPos m)) := by
  cases h with
  | @number d t c value sign kind =>
    have written : ArgumentWritten _ [d.mapPos m, t.mapPos m] := .number sign kind
    exact written
  | @name d t c sign kind =>
    have written : ArgumentWritten _ [d.mapPos m, t.mapPos m] := .name sign kind
    exact written
  | @negative d n t c value sign minus kind =>
    have written : ArgumentWritten _ [d.mapPos m, n.mapPos m, t.mapPos m] :=
      .negative sign minus kind
    exact written

theorem ArgumentsWritten.mapPos (h : ArgumentsWritten xs ts) :
    ArgumentsWritten (xs.map (·.mapPos m)) (ts.map (·.mapPos m)) := by
  induction h with
  | nil => exact .nil
  | cons first _ ih =>
    rw [map_append]
    exact .cons (first.mapPos m) ih

theorem ChainWritten.mapPos (h : ChainWritten nameEnd xs chainEnd ts) :
    ChainWritten (m nameEnd) (xs.map (·.mapPos m)) (m chainEnd) (ts.map (·.mapPos m)) := by
  cases h with
  | absent => exact .absent
  | @bare t colon =>
    have written : ChainWritten (m nameEnd) [] _ [t.mapPos m] := .bare colon
    exact written
  | @full xs x t ts colon written =>
    have arguments := written.mapPos m
    rw [map_append] at arguments ⊢
    have colon' : (t.mapPos m).kind = .colon := colon
    exact .full colon' arguments

/-- A formula elsewhere is written in its tokens there. -/
theorem Written.mapPos (h : Written level f ts) :
    Written level (f.mapPos m) (ts.map (·.mapPos m)) := by
  induction h with
  | @literal t value kind =>
    have written : Written .operand (.literal value _) [t.mapPos m] := .literal kind
    exact written
  | @name t kind =>
    have written : Written .operand _ [t.mapPos m] := .name kind
    exact written
  | @negation n f ts minus operand ih =>
    have minus' : (n.mapPos m).kind = .minus := minus
    have written := Written.negation minus' ih
    rw [span_mapPos] at written
    exact written
  | @chain name xs chainEnd ts kind chain called =>
    have kind' : (name.mapPos m).kind = .ident := kind
    exact .chain kind' (chain.mapPos m) (by simpa using called)
  | @applied name opening closing xs chainEnd body ts us kind chain noBare opens inner closes ih =>
    have kind' : (name.mapPos m).kind = .ident := kind
    have opens' : (opening.mapPos m).kind = .leftParen := opens
    have closes' : (closing.mapPos m).kind = .rightParen := closes
    rw [map_cons, map_append, map_cons, map_append]
    exact .applied kind' (chain.mapPos m) (by simpa using noBare) opens' ih closes'
  | ofBelow upper part ih => exact .ofBelow upper ih
  | @joined level left right ts us sign op first operator second ih₁ ih₂ =>
    have operator' : level.operator? (sign.mapPos m) = some op := by cases level <;> exact operator
    rw [join_mapPos, map_append]
    exact .joined ih₁ operator' ih₂

end

/-! ## No words side by side -/

theorem Parted.append (h : Parted ts) (h' : Parted us)
    (sign : ∀ t ∈ us.head?, t.kind.isWord = false) : Parted (ts ++ us) :=
  isChain_append.2 ⟨h, h', fun _ _ u hu => Or.inr (sign u hu)⟩

theorem parted_singleton (t : Token) : Parted [t] :=
  isChain_singleton t

theorem Parted.cons_sign (sign : t.kind.isWord = false) (h : Parted ts) : Parted (t :: ts) :=
  isChain_cons.2 ⟨fun _ _ => Or.inl sign, h⟩

theorem Parted.join (h : Parted ts) (sign : t.kind.isWord = false) (h' : Parted us) :
    Parted (ts ++ t :: us) :=
  h.append (h'.cons_sign sign) (by simpa using sign)

theorem isWord_operatorKind (op : BinaryOperator) : (operatorKind op).isWord = false := by
  cases op <;> rfl

theorem isWord_of_delimiter {d : Token} {c : Char} (h : delimiter? d = some c) :
    d.kind.isWord = false := by
  rcases delimiter_kind h with hk | hk
  · rw [hk]; rfl
  · rw [hk]; rfl

theorem ArgumentWritten.parted (h : ArgumentWritten x ts) :
    Parted ts ∧ ∀ t ∈ ts.head?, t.kind.isWord = false := by
  cases h with
  | @number d t c value sign kind =>
    have hd := isWord_of_delimiter sign
    exact ⟨(parted_singleton t).cons_sign hd, by simpa using hd⟩
  | @name d t c sign kind =>
    have hd := isWord_of_delimiter sign
    exact ⟨(parted_singleton t).cons_sign hd, by simpa using hd⟩
  | @negative d n t c value sign minus kind =>
    have hd := isWord_of_delimiter sign
    have hn : n.kind.isWord = false := by rw [minus]; rfl
    exact ⟨((parted_singleton t).cons_sign hn).cons_sign hd, by simpa using hd⟩

theorem ArgumentsWritten.parted (h : ArgumentsWritten xs ts) :
    Parted ts ∧ ∀ t ∈ ts.head?, t.kind.isWord = false := by
  induction h with
  | nil => exact ⟨isChain_nil, by simp⟩
  | cons first rest ih =>
    refine ⟨first.parted.1.append ih.1 ih.2, fun t ht => ?_⟩
    obtain ⟨d, us, rfl, -⟩ := first.exists_delimiter
    exact first.parted.2 t ht

theorem ChainWritten.parted (h : ChainWritten nameEnd xs chainEnd ts) :
    Parted ts ∧ ∀ t ∈ ts.head?, t.kind.isWord = false := by
  cases h with
  | absent => exact ⟨isChain_nil, by simp⟩
  | @bare t colon => exact ⟨parted_singleton t, by simp [colon, TokenKind.isWord]⟩
  | full colon written => exact written.parted

/-- In a formula a sign stands between any two words. -/
theorem Written.parted {level : Level} {f : Formula} {ts : List Token} (h : Written level f ts) :
    Parted ts := by
  induction h with
  | @literal t value kind => exact parted_singleton t
  | @name t kind => exact parted_singleton t
  | negation minus operand ih => exact ih.cons_sign (by rw [minus]; rfl)
  | @chain name xs chainEnd ts kind chain called =>
    obtain ⟨parted, sign⟩ := chain.parted
    exact (parted_singleton name).append parted sign
  | @applied name opening closing xs chainEnd body ts us kind chain noBare opens inner closes ih =>
    obtain ⟨parted, sign⟩ := chain.parted
    have call : Parted (name :: ts) := (parted_singleton name).append parted sign
    have behind : Parted (us ++ [closing]) := ih.join (by rw [closes]; rfl) isChain_nil
    exact call.join (by rw [opens]; rfl) behind
  | ofBelow upper part ih => exact ih
  | joined first operator second ih₁ ih₂ =>
    exact ih₁.join (by rw [(Level.operator?_eq_some operator).1, isWord_operatorKind]) ih₂

/-! ## Where the parts of calls start -/

/-- Where tokens start. -/
def starts (ts : List Token) : List Nat :=
  ts.map (·.span.start)

@[simp]
theorem starts_cons (t : Token) (ts : List Token) :
    starts (t :: ts) = t.span.start :: starts ts := rfl

@[simp]
theorem starts_append (ts us : List Token) : starts (ts ++ us) = starts ts ++ starts us :=
  map_append

theorem Spaced.le_starts {a b : Nat} (h : Spaced a ts b) : ∀ p ∈ starts ts, a ≤ p := by
  induction ts generalizing a with
  | nil => simp [starts]
  | cons t ts ih =>
    obtain ⟨h₁, h₂, rest⟩ := h
    refine forall_mem_cons.2 ⟨h₁, fun p hp => ?_⟩
    have := ih rest p hp
    omega

theorem Spaced.nodup_starts {a b : Nat} (h : Spaced a ts b) : (starts ts).Nodup := by
  induction ts generalizing a with
  | nil => exact nodup_nil
  | cons t ts ih =>
    obtain ⟨h₁, h₂, rest⟩ := h
    refine nodup_cons.2 ⟨fun hp => ?_, ih rest⟩
    have := rest.le_starts t.span.start hp
    omega

theorem ArgumentWritten.marks_sublist (h : ArgumentWritten x ts) :
    (argumentMarks x).Sublist (starts ts) := by
  cases h with
  | number sign kind => exact List.Sublist.refl _
  | name sign kind => exact List.Sublist.refl _
  | @negative d n t c value sign minus kind =>
    exact sublist_append_left [d.span.start, n.span.start] [t.span.start]

theorem ArgumentsWritten.marks_sublist (h : ArgumentsWritten xs ts) :
    (xs.flatMap argumentMarks).Sublist (starts ts) := by
  induction h with
  | nil => exact List.Sublist.refl _
  | cons first rest ih =>
    rw [starts_append]
    exact first.marks_sublist.append ih

theorem ChainWritten.marks_sublist (h : ChainWritten nameEnd xs chainEnd ts) :
    (xs.flatMap argumentMarks).Sublist (starts ts) := by
  cases h with
  | absent => exact List.Sublist.refl _
  | bare colon => exact nil_sublist _
  | full colon written => exact written.marks_sublist

theorem marks_join (op : BinaryOperator) (left right : Formula) :
    (join op left right).marks = left.marks ++ right.marks :=
  flatMap_append

/-- The parts of calls start where tokens do, in the same order. -/
theorem Written.marks_sublist (h : Written level f ts) : f.marks.Sublist (starts ts) := by
  induction h with
  | literal kind => exact nil_sublist _
  | name kind => exact nil_sublist _
  | negation minus operand ih => exact ih.cons _
  | chain kind chain called =>
    have arguments := chain.marks_sublist
    simpa [marks, calls, callMarks] using arguments
  | @applied name opening closing xs chainEnd body ts us kind chain noBare opens inner closes ih =>
    have inside := ih.trans (sublist_append_left _ (starts [closing]))
    have all := (chain.marks_sublist.append (inside.cons opening.span.start)).cons_cons
      name.span.start
    simpa [marks, calls, callMarks] using all
  | ofBelow upper part ih => exact ih
  | joined first operator second ih₁ ih₂ =>
    rw [marks_join, starts_append]
    exact ih₁.append (ih₂.cons _)

/-! ## A token in the place of a part of a call -/

/-- A token that can be written in the place of an argument or of the delimiter before it. -/
inductive ArgumentPart (x : Argument) : Token → Prop
  | word (text : String) : ArgumentPart x ⟨.ident, text, x.span⟩
  | delimiter : ArgumentPart x ⟨.colon, ":", ⟨x.delimiterOffset, x.delimiterOffset + 1⟩⟩

/-- A token that can be written in the place of a part of a call. -/
inductive CallPart (call : Call) : Token → Prop
  | name (text : String) : CallPart call ⟨.ident, text, call.nameSpan⟩
  | argument {x : Argument} {t : Token} (hx : x ∈ call.arguments) (part : ArgumentPart x t) :
      CallPart call t

/-- Tokens of which some are replaced by the token `t`, on the same characters. -/
def Spliced (t : Token) (ts ts' : List Token) : Prop :=
  ∃ us old vs, ts = us ++ (old ++ vs) ∧ ts' = us ++ t :: vs ∧ Covers t.span old

theorem spliced_head (t u : Token) (span : t.span = u.span) (ts : List Token) :
    Spliced t (u :: ts) (t :: ts) :=
  ⟨[], [u], ts, rfl, rfl, span ▸ covers_self u⟩

theorem Spliced.append_left (h : Spliced t ts ts') (us : List Token) :
    Spliced t (us ++ ts) (us ++ ts') := by
  obtain ⟨vs, old, ws, rfl, rfl, covers⟩ := h
  exact ⟨us ++ vs, old, ws, by simp, by simp, covers⟩

theorem Spliced.append_right (h : Spliced t ts ts') (us : List Token) :
    Spliced t (ts ++ us) (ts' ++ us) := by
  obtain ⟨vs, old, ws, rfl, rfl, covers⟩ := h
  exact ⟨vs, old, ws ++ us, by simp, by simp, covers⟩

theorem Spliced.mem_starts (h : Spliced t ts ts') : t.span.start ∈ starts ts := by
  obtain ⟨us, old, vs, rfl, -, first, last, hfirst, -, span⟩ := h
  have start : t.span.start = first.span.start := by rw [span]; rfl
  rw [start]
  refine mem_map_of_mem ?_
  simp [mem_of_head? hfirst]

/-- Tokens that start at different characters, and signs one character long. -/
structure Placed (ts : List Token) : Prop where
  distinct : (starts ts).Nodup
  signs : ∀ t ∈ ts, t.kind.isWord = false → t.span.stop = t.span.start + 1

theorem Placed.of_append (h : Placed (ts ++ us)) :
    Placed ts ∧ Placed us ∧ (starts ts).Disjoint (starts us) := by
  obtain ⟨distinct, signs⟩ := h
  rw [starts_append] at distinct
  obtain ⟨first, second⟩ := forall_mem_append.1 signs
  exact ⟨⟨distinct.of_append_left, first⟩, ⟨distinct.of_append_right, second⟩,
    disjoint_of_nodup_append distinct⟩

theorem Placed.of_cons (h : Placed (t :: ts)) : Placed ts ∧ t.span.start ∉ starts ts := by
  obtain ⟨-, placed, apart⟩ := Placed.of_append (show Placed ([t] ++ ts) from h)
  exact ⟨placed, fun ht => apart mem_cons_self ht⟩

/-! ## What is not written at -/

section

variable {p : Nat} {text : String}

theorem argument_writeAt_eq_self (h : p ∉ argumentMarks x) : x.writeAt p text = x := by
  simp only [argumentMarks, mem_cons, not_mem_nil, or_false, not_or] at h
  simp [Argument.writeAt, Ne.symm h.1, Ne.symm h.2]

theorem arguments_writeAt_eq_self (h : p ∉ xs.flatMap argumentMarks) :
    xs.map (·.writeAt p text) = xs := by
  have each : ∀ x ∈ xs, x.writeAt p text = id x := fun x hx =>
    argument_writeAt_eq_self fun hp => h (mem_flatMap_of_mem hx hp)
  rw [map_congr_left each, map_id]

theorem call_writeAt_eq_self {call : Call} (h : p ∉ callMarks call) :
    call.writeAt p text = call := by
  obtain ⟨name, arguments⟩ := not_or.1 (mem_cons.not.1 h)
  have hname : call.nameSpan.start ≠ p := fun e => name e.symm
  rw [Call.writeAt, if_neg hname, arguments_writeAt_eq_self arguments]

theorem writeAt_eq_self (h : p ∉ f.marks) : f.writeAt p text = f := by
  induction f with
  | literal value span => rfl
  | «variable» name span => rfl
  | negation operand span ih => exact congrArg (Formula.negation · _) (ih h)
  | binary op left right span ihl ihr =>
    rw [marks, calls, flatMap_append, mem_append, not_or] at h
    exact congrArg₂ (Formula.binary op · · _) (ihl h.1) (ihr h.2)
  | chain call =>
    have hcall : p ∉ callMarks call := by simpa [marks, calls] using h
    exact congrArg Formula.chain (call_writeAt_eq_self hcall)
  | applied call body span ih =>
    rw [marks, calls, flatMap_cons, mem_append, not_or] at h
    exact congrArg₂ (Formula.applied · · _) (call_writeAt_eq_self h.1) (ih h.2)

end

/-! ## Writing in tokens -/

/-- The delimiter of an argument, and the tokens it stands on. -/
theorem ArgumentWritten.parts (h : ArgumentWritten x ts) :
    ∃ d us, ts = d :: us ∧ delimiter? d = some x.delimiter ∧ x.delimiterOffset = d.span.start ∧
      Covers x.span us := by
  cases h with
  | @number d t c value sign kind => exact ⟨d, [t], rfl, sign, rfl, covers_self t⟩
  | @name d t c sign kind => exact ⟨d, [t], rfl, sign, rfl, covers_self t⟩
  | @negative d n t c value sign minus kind =>
    exact ⟨d, [n, t], rfl, sign, rfl, (covers_self t).cons n⟩

theorem ArgumentWritten.redelimit {d : Token} (h : ArgumentWritten x (d :: us)) {e : Token}
    {c : Char} (he : delimiter? e = some c) (start : e.span.start = x.delimiterOffset) :
    ArgumentWritten { x with delimiter := c } (e :: us) := by
  cases h with
  | number sign kind =>
    rw [← start]
    exact .number he kind
  | name sign kind =>
    rw [← start]
    exact .name he kind
  | negative sign minus kind =>
    rw [← start]
    exact .negative he minus kind

/-- Whether a colon comes first. -/
def ColonFirst (ts : List Token) : Prop :=
  ∃ t us, ts = t :: us ∧ t.kind = .colon

theorem ArgumentWritten.splice (h : ArgumentWritten x ts) (placed : Placed ts)
    (part : ArgumentPart x t) :
    ∃ ts', Spliced t ts ts' ∧ ArgumentWritten (x.writeAt t.span.start t.text) ts' ∧
      (ColonFirst ts → ColonFirst ts') := by
  obtain ⟨d, us, rfl, sign, offset, covers⟩ := h.parts
  have apart : x.delimiterOffset ≠ x.span.start := by
    simpa [argumentMarks] using h.marks_sublist.nodup placed.distinct
  cases part with
  | word text =>
    refine ⟨[d, ⟨.ident, text, x.span⟩], ⟨[d], us, [], by simp, rfl, covers⟩, ?_, ?_⟩
    · have written := ArgumentWritten.name (t := ⟨.ident, text, x.span⟩) sign rfl
      rw [← offset] at written
      simpa [Argument.writeAt, apart] using written
    · rintro ⟨_, _, e, colon⟩
      obtain ⟨rfl, rfl⟩ := cons.inj e
      exact ⟨d, _, rfl, colon⟩
  | delimiter =>
    have width := placed.signs d mem_cons_self (isWord_of_delimiter sign)
    have span : (⟨x.delimiterOffset, x.delimiterOffset + 1⟩ : CharRange) = d.span := by
      rw [offset, ← width]
    refine ⟨_, spliced_head _ d span us, ?_, fun _ => ⟨_, _, rfl, rfl⟩⟩
    have written := h.redelimit (e := ⟨.colon, ":", ⟨x.delimiterOffset, x.delimiterOffset + 1⟩⟩)
      (c := ':') rfl rfl
    simpa [Argument.writeAt, apart.symm] using written

theorem ColonFirst.append (h : ColonFirst ts) (us : List Token) : ColonFirst (ts ++ us) := by
  obtain ⟨t, vs, rfl, colon⟩ := h
  exact ⟨t, vs ++ us, rfl, colon⟩

theorem ArgumentWritten.colonFirst (h : ArgumentWritten x ts) (colon : ColonFirst (ts ++ us)) :
    ColonFirst ts := by
  obtain ⟨d, vs, rfl, -⟩ := h.parts
  obtain ⟨t, ws, e, ht⟩ := colon
  obtain ⟨rfl, -⟩ := cons.inj e
  exact ⟨d, vs, rfl, ht⟩

theorem ArgumentsWritten.splice (h : ArgumentsWritten xs ts) (placed : Placed ts) (hx : x ∈ xs)
    (part : ArgumentPart x t) :
    ∃ ts', Spliced t ts ts' ∧
      ArgumentsWritten (xs.map (·.writeAt t.span.start t.text)) ts' ∧
      (ColonFirst ts → ColonFirst ts') := by
  induction h with
  | nil => simp at hx
  | @cons y ys ts us first rest ih =>
    obtain ⟨placed₁, placed₂, apart⟩ := placed.of_append
    rcases mem_cons.1 hx with rfl | hx
    · obtain ⟨ts', spliced, written, colon⟩ := first.splice placed₁ part
      have others : ys.map (·.writeAt t.span.start t.text) = ys :=
        arguments_writeAt_eq_self fun hp =>
          apart spliced.mem_starts (rest.marks_sublist.subset hp)
      refine ⟨ts' ++ us, spliced.append_right us, ?_,
        fun h => (colon (first.colonFirst h)).append us⟩
      rw [map_cons, others]
      exact .cons written rest
    · obtain ⟨us', spliced, written, -⟩ := ih placed₂ hx
      have same : y.writeAt t.span.start t.text = y :=
        argument_writeAt_eq_self fun hp =>
          apart (first.marks_sublist.subset hp) spliced.mem_starts
      refine ⟨ts ++ us', spliced.append_left ts, ?_, fun h => (first.colonFirst h).append us'⟩
      rw [map_cons, same]
      exact .cons first written

theorem ChainWritten.splice (h : ChainWritten nameEnd xs chainEnd ts) (placed : Placed ts)
    (hx : x ∈ xs) (part : ArgumentPart x t) :
    ∃ ts', Spliced t ts ts' ∧ ts' ≠ [] ∧
      ChainWritten nameEnd (xs.map (·.writeAt t.span.start t.text)) chainEnd ts' := by
  cases h with
  | absent => simp at hx
  | bare colon => simp at hx
  | @full xs y u ts colon written =>
    obtain ⟨ts', spliced, written', first⟩ := written.splice placed hx part
    obtain ⟨v, vs, rfl, colon'⟩ := first ⟨u, ts, rfl, colon⟩
    rw [map_append] at written' ⊢
    exact ⟨_, spliced, cons_ne_nil _ _, .full colon' written'⟩

/-- A call with a part of it written anew. -/
theorem splice_call {name : Token} {span : CharRange} (kind : name.kind = .ident)
    (chain : ChainWritten name.span.stop xs chainEnd ts) (placed : Placed (name :: ts))
    (part : CallPart ⟨name.text, name.span, xs, span⟩ t) :
    ∃ name' ts', Spliced t (name :: ts) (name' :: ts') ∧ name'.kind = .ident ∧
      name'.span = name.span ∧ (ts' = [] ↔ ts = []) ∧
      name'.text = (if name.span.start = t.span.start then t.text else name.text) ∧
      ChainWritten name.span.stop (xs.map (·.writeAt t.span.start t.text)) chainEnd ts' := by
  obtain ⟨placed', apart⟩ := placed.of_cons
  cases part with
  | name text =>
    have others : xs.map (·.writeAt name.span.start text) = xs :=
      arguments_writeAt_eq_self fun hp => apart (chain.marks_sublist.subset hp)
    refine ⟨⟨.ident, text, name.span⟩, ts, spliced_head ⟨.ident, text, name.span⟩ name rfl ts, rfl,
      rfl, Iff.rfl, by simp, ?_⟩
    rw [others]
    exact chain
  | @argument x t hx part =>
    obtain ⟨ts', spliced, hne, written⟩ := chain.splice placed' hx part
    have hts : ts ≠ [] := by
      rintro rfl
      exact absurd spliced.mem_starts not_mem_nil
    have other : name.span.start ≠ t.span.start := fun e => apart (e ▸ spliced.mem_starts)
    refine ⟨name, ts', spliced.append_left [name], kind, rfl, by simp [hne, hts], by simp [other],
      written⟩

/-- A part of a call with a body is written anew, or of a call in the body. -/
theorem splice_applied {name opening closing : Token} {body : Formula} (kind : name.kind = .ident)
    (chain : ChainWritten name.span.stop xs chainEnd ts) (noBare : xs = [] → ts = [])
    (opens : opening.kind = .leftParen) (inner : Written .sum body us)
    (closes : closing.kind = .rightParen)
    (placed : Placed ((name :: ts) ++ opening :: (us ++ [closing])))
    (hc : c = (⟨name.text, name.span, xs, ⟨name.span.start, closing.span.stop⟩⟩, true) ∨
      c ∈ body.calls)
    (part : CallPart c.1 t)
    (ih : Placed us → c ∈ body.calls →
      ∃ us', Spliced t us us' ∧ Written .sum (body.writeAt t.span.start t.text) us') :
    ∃ ts', Spliced t (name :: (ts ++ opening :: (us ++ [closing]))) ts' ∧
      Written .operand
        (Formula.writeAt t.span.start t.text
          (.applied ⟨name.text, name.span, xs, ⟨name.span.start, closing.span.stop⟩⟩ body
            ⟨opening.span.start, closing.span.stop⟩)) ts' := by
  obtain ⟨placedCall, behind, apart⟩ := placed.of_append
  obtain ⟨placedBody, -, -⟩ := behind.of_cons.1.of_append
  rcases hc with rfl | hc
  · obtain ⟨name', ts', spliced, kind', span, empty, text, chain'⟩ :=
      splice_call kind chain placedCall part
    have same : body.writeAt t.span.start t.text = body :=
      writeAt_eq_self fun hp => apart spliced.mem_starts (by simp [inner.marks_sublist.subset hp])
    rw [← span] at chain'
    have whole := Written.applied kind' chain'
      (fun e => empty.2 (noBare (map_eq_nil_iff.1 e))) opens inner closes
    rw [span, text] at whole
    refine ⟨_, spliced.append_right _, ?_⟩
    rw [writeAt, mapCalls, ← writeAt, same]
    exact whole
  · obtain ⟨us', spliced, written⟩ := ih placedBody hc
    have inBody : t.span.start ∈ starts (opening :: (us ++ [closing])) := by
      simp [spliced.mem_starts]
    have same : Call.writeAt t.span.start t.text
        ⟨name.text, name.span, xs, ⟨name.span.start, closing.span.stop⟩⟩ =
        ⟨name.text, name.span, xs, ⟨name.span.start, closing.span.stop⟩⟩ :=
      call_writeAt_eq_self fun hp =>
        apart ((chain.marks_sublist.cons_cons name.span.start).subset hp) inBody
    have inParens := (spliced.append_right [closing]).append_left [opening]
    refine ⟨_, inParens.append_left (name :: ts), ?_⟩
    rw [writeAt, mapCalls, same]
    exact .applied kind chain noBare opens written closes

/-- A formula with a part of one of its calls written anew is written in the tokens with the new
one. -/
theorem Written.splice (h : Written level f ts) (placed : Placed ts) (hc : c ∈ f.calls)
    (part : CallPart c.1 t) :
    ∃ ts', Spliced t ts ts' ∧ Written level (f.writeAt t.span.start t.text) ts' := by
  induction h with
  | literal kind => simp [calls] at hc
  | name kind => simp [calls] at hc
  | @negation n f ts minus operand ih =>
    obtain ⟨placed', -⟩ := placed.of_cons
    obtain ⟨ts', spliced, written⟩ := ih placed' hc
    have whole := Written.negation minus written
    rw [span_writeAt] at whole
    exact ⟨n :: ts', spliced.append_left [n], whole⟩
  | @chain name xs chainEnd ts kind chain called =>
    obtain rfl := mem_singleton.1 hc
    obtain ⟨name', ts', spliced, kind', span, empty, text, chain'⟩ :=
      splice_call kind chain placed part
    rw [← span] at chain'
    have whole := Written.chain kind' chain' fun e => called (empty.1 e)
    rw [span, text] at whole
    exact ⟨_, spliced, whole⟩
  | applied kind chain noBare opens inner closes ih =>
    exact splice_applied kind chain noBare opens inner closes placed (mem_cons.1 hc) part ih
  | ofBelow upper part ih =>
    obtain ⟨ts', spliced, written⟩ := ih placed hc
    exact ⟨ts', spliced, .ofBelow upper written⟩
  | @joined level left right ts us sign op first operator second ih₁ ih₂ =>
    obtain ⟨placed₁, behind, apart⟩ := placed.of_append
    obtain ⟨placed₂, -⟩ := behind.of_cons
    rw [join_writeAt]
    rcases mem_append.1 hc with hc | hc
    · obtain ⟨ts', spliced, written⟩ := ih₁ placed₁ hc
      have same : right.writeAt t.span.start t.text = right :=
        writeAt_eq_self fun hp => apart spliced.mem_starts
          (mem_cons_of_mem _ (second.marks_sublist.subset hp))
      exact ⟨_, spliced.append_right _, .joined written operator (same.symm ▸ second)⟩
    · obtain ⟨us', spliced, written⟩ := ih₂ placed₂ hc
      have same : left.writeAt t.span.start t.text = left :=
        writeAt_eq_self fun hp => apart (first.marks_sublist.subset hp)
          (mem_cons_of_mem _ spliced.mem_starts)
      exact ⟨_, (spliced.append_left [sign]).append_left ts,
        .joined (same.symm ▸ first) operator written⟩

/-! ## Writing in texts -/

theorem placed_scan (h : scan text = .ok ts) : Placed ts := by
  refine ⟨(spaced_scan h).nodup_starts, fun t ht sign => ?_⟩
  have fits := (tiled_scan h).fits t ht
  have hs : t.kind.sign ≠ "" := by
    cases hk : t.kind with
    | number value => simp [hk, TokenKind.isWord] at sign
    | ident => simp [hk, TokenKind.isWord] at sign
    | _ => decide
  rw [fits.eq_sign rfl hs]
  rfl

/-- The tokens of a text are those of the formula that is read from it. -/
theorem greedy_of_parse (h : parse text = .ok f) : ∃ ts, scan text = .ok ts ∧ Greedy .sum f ts := by
  obtain ⟨ts, scanned, written, fit⟩ := parse_written h
  obtain ⟨g, greedy⟩ := written.derives.formed fit
  obtain rfl : f = g := Except.ok.inj (h.symm.trans (greedy.parse_eq scanned))
  exact ⟨ts, scanned, greedy⟩

theorem nodup_marks (h : parse text = .ok f) : f.marks.Nodup := by
  obtain ⟨ts, scanned, written, -⟩ := parse_written h
  exact written.marks_sublist.nodup (placed_scan scanned).distinct

/-- A text with a token in the place of a part of a call is read as the formula with that part
written anew, with everything behind it moved along. -/
theorem parse_replace (h : parse text = .ok f) (hc : c ∈ f.calls) (part : CallPart c.1 t)
    (lexeme : TokenText t.kind t.text.toList) :
    parse (String.ofList (t.span.replace t.text.toList text.toList)) =
      .ok ((f.writeAt t.span.start t.text).mapPos (resize t.span t.text.toList.length)) := by
  obtain ⟨ts, scanned, written, undivided⟩ := greedy_of_parse h
  obtain ⟨ts', ⟨us, old, vs, rfl, rfl, covers⟩, written'⟩ :=
    written.splice (placed_scan scanned) hc part
  have moved := written'.mapPos (resize t.span t.text.toList.length)
  have kept : ∀ g ∈ (f.writeAt t.span.start t.text).nodes, g.Undivided :=
    undivided_mapCalls (fun call => by simp [Call.writeAt]) undivided
  have greedy : Greedy .sum _ _ :=
    ⟨moved, undivided_mapCalls (fun call => by simp [Call.mapPos]) kept⟩
  exact greedy.parse_eq (scan_replace scanned covers rfl lexeme moved.parted)

end Formula

end ModCheck
