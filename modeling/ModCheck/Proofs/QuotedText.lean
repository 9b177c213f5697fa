import ModCheck.Proofs.FormulaTree
import ModCheck.Proofs.ValueIssues

/-
  What an issue of a value quotes. An issue stands on characters of the value, and one that offers
  a replacement quotes in its message what it is about: a name that is not known, a sign between
  arguments, or the name of a tag. Those are the characters of the value at the issue's range and
  no others (`issue_quotes_its_range`), however often the same text occurs in the value. Every
  argument of a call keeps its own range, also when arguments left over become a call of their own;
  the range of a formula inside a tag is moved by where the argument starts.
-/

namespace ModCheck

open List
open Text (Piece splitPieces isBlank)

/-! ## Characters at a range -/

/-- The characters of a text at a range are `part`. -/
def CharRange.Holds (r : CharRange) (text part : List Char) : Prop :=
  ∃ before after, text = before ++ (part ++ after) ∧
    r = ⟨before.length, before.length + part.length⟩

/-- A range on characters of a text. -/
structure CharRange.LiesIn (r : CharRange) (text : List Char) : Prop where
  ordered : r.start ≤ r.stop
  upper : r.stop ≤ text.length

theorem CharRange.LiesIn.exists_holds {r : CharRange} {text : List Char} (h : r.LiesIn text) :
    ∃ part, r.Holds text part := by
  have upper := h.upper
  have ordered := h.ordered
  refine ⟨(text.drop r.start).take (r.stop - r.start), text.take r.start,
    (text.drop r.start).drop (r.stop - r.start), ?_, ?_⟩
  · rw [take_append_drop, take_append_drop]
  · rw [length_take, length_take, length_drop, Nat.min_eq_left (by omega),
      Nat.min_eq_left (by omega), Nat.add_sub_of_le ordered]

/-- From the first to the last of what follows each other in a text. -/
theorem liesIn_to_last {α : Type} (range : α → CharRange) {text : List Char} {x : α} {xs : List α}
    (h : ∀ y ∈ x :: xs, (range y).LiesIn text)
    (ordered : (x :: xs).Pairwise fun y z => (range y).stop ≤ (range z).start) :
    CharRange.LiesIn ⟨(range x).start,
      (xs.getLast?.map fun y => (range y).stop).getD (range x).stop⟩ text := by
  have first := h x mem_cons_self
  cases e : xs.getLast? with
  | none => exact first
  | some y =>
    have hy := mem_of_getLast? e
    have last := h y (mem_cons_of_mem x hy)
    have between := rel_of_pairwise_cons ordered hy
    exact ⟨Nat.le_trans first.ordered (Nat.le_trans between last.ordered), last.upper⟩

namespace CharRange.Holds

theorem stop_eq {r : CharRange} {text part : List Char} (h : r.Holds text part) :
    r.stop = r.start + part.length := by
  obtain ⟨before, after, -, rfl⟩ := h
  rfl

theorem liesIn {r : CharRange} {text part : List Char} (h : r.Holds text part) : r.LiesIn text := by
  refine ⟨by rw [h.stop_eq]; omega, ?_⟩
  obtain ⟨before, after, rfl, rfl⟩ := h
  simp only [length_append]
  omega

theorem textAt_eq {r : CharRange} {text part : List Char} (h : r.Holds text part) :
    Formula.textAt text r = part := by
  obtain ⟨before, after, rfl, rfl⟩ := h
  rw [Formula.textAt, ← append_assoc, ← length_append, take_left, drop_left]

/-- A part of a part. -/
theorem trans {r s : CharRange} {text part whole : List Char} (inner : r.Holds text part)
    (outer : s.Holds whole text) : (r.shift s.start).Holds whole part := by
  obtain ⟨before, after, rfl, rfl⟩ := inner
  obtain ⟨first, last, rfl, rfl⟩ := outer
  refine ⟨first ++ before, after ++ last, by simp, ?_⟩
  simp only [CharRange.shift, CharRange.mk.injEq, length_append]
  omega

theorem trim {p : Piece} {text : List Char} (h : p.range.Holds text p.text) :
    p.trim.range.Holds text p.trim.text := by
  obtain ⟨before, after, split, -, range⟩ := RichText.trim_split p
  obtain ⟨first, last, rfl, outer⟩ := h
  rw [split, range, outer]
  refine ⟨first ++ before, after ++ last, by simp, ?_⟩
  rw [CharRange.mk.injEq, length_append]
  exact ⟨rfl, rfl⟩

end CharRange.Holds

/-- The pieces of a part of a text stand where they say. -/
theorem splitPieces_holds (separator : Char) (before cs after : List Char) :
    ∀ p ∈ splitPieces separator before.length cs,
      p.range.Holds (before ++ (cs ++ after)) p.text := by
  induction cs generalizing before with
  | nil =>
    intro p hp
    rw [mem_singleton.1 hp]
    exact ⟨before, after, rfl, rfl⟩
  | cons c cs ih =>
    have later := ih (before ++ [c])
    rw [length_append, length_singleton, append_assoc] at later
    obtain ⟨q, qs, rest, e, -, split⟩ := RichText.splitPieces_head separator (before.length + 1) cs
    obtain ⟨q', qs', e', start, -, size, -⟩ := splitPieces_spec separator (before.length + 1) cs
    obtain ⟨rfl, rfl⟩ := cons_eq_cons.1 (e.symm.trans e')
    rw [e] at later
    intro p hp
    simp only [splitPieces, e] at hp
    split at hp
    · rcases mem_cons.1 hp with rfl | hp
      · exact ⟨before, c :: (cs ++ after), rfl, rfl⟩
      · exact later p hp
    · rcases mem_cons.1 hp with rfl | hp
      · -- the first piece grows by the character in front of it
        refine ⟨before, rest ++ after, by rw [split]; simp, ?_⟩
        rw [CharRange.mk.injEq, length_cons]
        exact ⟨rfl, by omega⟩
      · exact later p (mem_cons_of_mem q hp)

/-! ## What a message quotes -/

/-- The checks that offer a replacement. -/
def Code.offers : Code → Bool
  | .unknownOperator => true
  | .unknownSubOperator => true
  | .alternateDelimiter => true
  | .unknownTag => true
  | .unknownCommand => true
  | .zeroArgumentStyle => true
  | .invalidEnum => true
  | _ => false

/-- How an argument may be written: as it is, or with blanks behind the sign of a negative
number. -/
def WrittenAs (name written : List Char) : Prop :=
  written = name ∨ ∃ blanks digits, (∀ c ∈ blanks, isBlank c = true) ∧ name = '-' :: digits ∧
    written = '-' :: (blanks ++ digits)

/-- What an issue of a value of a type says when `quoted` stands at its range. A check that is not
among those that offer a replacement has none. -/
def Issue.Quotes (value : String) (type : FieldType) (i : Issue) (quoted : String) : Prop :=
  match i.code with
  | .unknownOperator => i.text = "Unknown operator '" ++ quoted ++ "'"
  | .unknownSubOperator => ∃ name caller, WrittenAs name.toList quoted.toList ∧
      i.text = "Unknown sub-operator '" ++ name ++ "' for '" ++ caller ++ "'"
  | .alternateDelimiter => ∃ caller delimiter, quoted = String.singleton delimiter ∧
      i.text = "'" ++ caller ++ "' does not accept '" ++ quoted ++ "' between arguments"
  | .unknownTag => (∃ tag, .tag tag ∈ RichText.segments value ∧ tag.name = quoted) ∧
      i.text = if quoted = "" then "Empty tag" else "Unknown tag '" ++ quoted ++ "'"
  | .unknownCommand => i.text = "Unknown command '" ++ quoted ++ "'"
  | .zeroArgumentStyle => (∃ tag, .tag tag ∈ RichText.segments value ∧ tag.name = quoted) ∧
      i.text = "Tags without arguments are written as <" ++ quoted ++ "=>"
  | .invalidEnum => ∃ name, (type = .enumeration name ∨ type = .list (.enumeration name)) ∧
      i.text = "'" ++ quoted ++ "' is not a member of " ++ name
  | _ => i.replacement = none

/-- An issue that offers nothing. -/
structure Issue.Quiet (i : Issue) : Prop where
  code : i.code.offers = false
  replacement : i.replacement = none

theorem Issue.Quiet.quotes {i : Issue} (h : i.Quiet) (value : String) (type : FieldType)
    (quoted : String) : i.Quotes value type quoted := by
  have code := h.code
  unfold Issue.Quotes
  split <;> simp_all [Code.offers, h.replacement]

/-- An issue that quotes the characters of `text` at its range, or offers nothing. -/
def Issue.Aims (value : String) (type : FieldType) (text : List Char) (i : Issue) : Prop :=
  ∃ quoted : String, i.range.Holds text quoted.toList ∧ i.Quotes value type quoted

section

variable {value : String} {type : FieldType} {text : List Char} {i : Issue}

theorem Issue.Quiet.aims (h : i.Quiet) (lies : i.range.LiesIn text) : i.Aims value type text := by
  obtain ⟨part, here⟩ := lies.exists_holds
  exact ⟨String.ofList part, by rwa [String.toList_ofList], h.quotes value type _⟩

/-- A formula that is a part of a text. -/
theorem Issue.Aims.shift {whole : List Char} {s : CharRange} (h : i.Aims value type text)
    (part : s.Holds whole text) : (i.shift s.start).Aims value type whole := by
  obtain ⟨quoted, here, quotes⟩ := h
  exact ⟨quoted, here.trans part, quotes⟩

end

/-! ## Formulas -/

namespace Formula

variable {a : Nat} {r : CharRange} {text : List Char} {ts : List Token} {type : FieldType}
  {value : String} {xs : List Argument}

/-- An argument that stands in a text at its range, behind its delimiter. -/
structure ArgumentHeld (text : List Char) (x : Argument) : Prop where
  name : x.isNumber = false → x.span.Holds text x.text.toList
  written : ∃ written, x.span.Holds text written ∧ WrittenAs x.text.toList written
  delimiter : CharRange.Holds ⟨x.delimiterOffset, x.delimiterOffset + 1⟩ text [x.delimiter]

theorem ArgumentHeld.liesIn {x : Argument} (h : ArgumentHeld text x) : x.span.LiesIn text := by
  obtain ⟨written, here, -⟩ := h.written
  exact here.liesIn

/-- Arguments that follow each other in a text. -/
structure ArgumentsHeld (text : List Char) (xs : List Argument) : Prop where
  each : ∀ x ∈ xs, ArgumentHeld text x
  ordered : xs.Pairwise fun x y => x.span.stop ≤ y.span.start

/-- A call whose name and arguments stand in a text at their ranges. -/
structure CallHeld (text : List Char) (call : Call) : Prop where
  span : call.span.LiesIn text
  name : call.nameSpan.Holds text call.name.toList
  arguments : ArgumentsHeld text call.arguments

/-- A body that stands in a text with its issues. -/
structure BodyHeld (value : String) (type : FieldType) (text : List Char) (body : Body) :
    Prop where
  span : body.span.LiesIn text
  formula : body.formula.span.LiesIn text
  issues : ∀ i ∈ body.issues, i.Aims value type text

theorem BodyHeld.argument {body : Body} (h : BodyHeld value type text body) :
    (bodyArgument body).span.LiesIn text := by
  unfold bodyArgument
  split
  · exact h.formula
  · exact h.span

theorem quiet_styleIssues (call : Call) (hasBody : Bool) (op : Operator) :
    ∀ i ∈ styleIssues call hasBody op, i.Quiet := by
  intro i hi
  unfold styleIssues at hi
  split at hi
  · rw [mem_singleton.1 hi]
    exact ⟨rfl, rfl⟩
  · rw [mem_singleton.1 hi]
    exact ⟨rfl, rfl⟩
  · simp at hi

theorem quiet_numericIssues (s : Checker) (ctx : CallSite) (spec : ArgumentSpec) (x : Argument) :
    ∀ i ∈ numericIssues s ctx spec x, i.Quiet := by
  intro i hi
  unfold numericIssues at hi
  split at hi
  · simp at hi
  · rw [mem_singleton.1 hi]
    exact ⟨rfl, rfl⟩

theorem quiet_usageIssues (s : Checker) (ctx : CallSite) (op : Operator) (plain : List Argument)
    (hasFormula : Bool) : ∀ i ∈ usageIssues s ctx op plain hasFormula, i.Quiet := by
  intro i hi
  unfold usageIssues at hi
  split at hi
  · split at hi
    · simp at hi
    · rcases mem_append.1 hi with hi | hi
      · obtain ⟨q, -, hi⟩ := mem_flatMap.1 hi
        exact quiet_numericIssues s ctx q.2 q.1 i hi
      · split at hi
        · rw [mem_singleton.1 hi]
          exact ⟨rfl, rfl⟩
        · simp at hi
  · rw [mem_singleton.1 hi]
    exact ⟨rfl, rfl⟩

theorem ArgumentsHeld.suffix {ys : List Argument} (h : ArgumentsHeld text xs) (part : ys <:+ xs) :
    ArgumentsHeld text ys :=
  ⟨fun x hx => h.each x (part.subset hx), h.ordered.sublist part.sublist⟩

/-- The call inside a chain takes its name and its arguments from the chain, each with its range. -/
theorem ArgumentsHeld.surplus {operators : NameTable Operator} (h : ArgumentsHeld text xs)
    {inner : Call} (e : surplus operators xs = .call inner) : CallHeld text inner := by
  obtain ⟨head, rest, rfl, word, rfl⟩ := surplus_eq_call e
  exact ⟨liesIn_to_last (·.span) (fun x hx => (h.each x hx).liesIn) h.ordered,
    (h.each head mem_cons_self).name word, h.suffix (suffix_cons head rest)⟩

theorem CallIssue.aims {s : Checker} {call : Call} {body : Option Body} {i : Issue}
    (hi : CallIssue s call body i) (h : CallHeld text call)
    (hbody : ∀ b ∈ body, BodyHeld value type text b) : i.Aims value type text := by
  induction hi with
  | @unknown call => exact ⟨call.name, h.name, rfl⟩
  | @delimiter call _ _ x _ hx _ =>
    refine ⟨String.singleton x.delimiter, ?_, call.name, x.delimiter, rfl, rfl⟩
    rw [String.toList_singleton]
    exact (h.arguments.each x hx).delimiter
  | @unknownSubOperator call _ _ _ first hop e =>
    obtain ⟨written, here, writtenAs⟩ :=
      (h.arguments.each first (addressee_unknown hop e).1).written
    refine ⟨String.ofList written, ?_, first.text, call.name, ?_, rfl⟩
    · rw [String.toList_ofList]
      exact here
    · rw [String.toList_ofList]
      exact writtenAs
  | numeric _ e hx =>
    refine Issue.Quiet.aims ⟨rfl, rfl⟩ ?_
    rcases hx with hx | ⟨b, hb, rfl⟩
    · exact (h.arguments.each _ ((addressee_suffix e).subset hx)).liesIn
    · exact (hbody b hb).argument
  | expression _ _ hb => exact Issue.Quiet.aims ⟨rfl, rfl⟩ (hbody _ hb).span
  | misplaced _ e hhead =>
    exact Issue.Quiet.aims ⟨rfl, rfl⟩
      (h.arguments.each _ ((addressee_suffix e).subset hhead)).liesIn
  | @inner _ _ _ _ _ _ xs n _ _ e _ e' _ ih =>
    -- what is left over are arguments too, so a call among them lies in this one
    have leftOver := h.arguments.suffix ((drop_suffix n xs).trans (addressee_suffix e))
    exact ih (leftOver.surplus e') (by simp)
  | body hb hi => exact (hbody _ hb).issues _ hi
  | _ => exact Issue.Quiet.aims ⟨rfl, rfl⟩ h.span

/-! ## Tokens -/

theorem Token.Fits.holds {t : Token} (h : t.Fits text) (hle : t.span.stop ≤ text.length) :
    t.span.Holds text t.text.toList := by
  have size := h.size
  have lies : t.span.LiesIn text := ⟨by omega, hle⟩
  obtain ⟨part, here⟩ := lies.exists_holds
  rwa [← h.here, here.textAt_eq]

/-- Tokens of a text from character `a` on. -/
structure Held (text : List Char) (a : Nat) (ts : List Token) : Prop where
  tiled : Tiled text a ts
  spaced : Spaced 0 ts text.length

/-- Each token stands on its own characters. -/
theorem Held.holds (h : Held text a ts) : ∀ t ∈ ts, t.span.Holds text t.text.toList :=
  fun t ht => (h.tiled.fits t ht).holds (h.spaced.bounds t ht).2.2

theorem Held.liesIn (h : Held text a ts) (covers : Covers r ts) : r.LiesIn text := by
  obtain ⟨-, h₂, h₃⟩ := covers.bounds h.spaced
  exact ⟨Nat.le_of_lt h₂, h₃⟩

theorem held_scan {source : String} (h : scan source = .ok ts) : Held source.toList 0 ts :=
  ⟨tiled_scan h, by rw [String.length_toList]; exact spaced_scan h⟩

theorem Held.of_append {ts us : List Token} (h : Held text a (ts ++ us)) :
    Held text a ts ∧ ∃ b, Held text b us := by
  obtain ⟨m, first, second⟩ := spaced_append.1 h.spaced
  have whole : Spaced 0 (ts ++ []) text.length := spaced_append.2 ⟨m, first, second.le⟩
  rw [append_nil] at whole
  exact ⟨⟨h.tiled.of_append.1, whole⟩, _, h.tiled.of_append.2, second.mono (Nat.zero_le m)⟩

theorem Held.tail {t : Token} (h : Held text a (t :: ts)) : Held text t.span.stop ts :=
  ⟨h.tiled.2.2, h.spaced.2.2.mono (Nat.zero_le _)⟩

/-- Two parts of a text with nothing but blanks between them. -/
theorem holds_through {r s : CharRange} {p q : List Char} (first : r.Holds text p)
    (second : s.Holds text q) (next : s.start = skipBlanks text r.stop) :
    ∃ blanks, (∀ c ∈ blanks, isBlank c = true) ∧
      (r.through s).Holds text (p ++ (blanks ++ q)) := by
  obtain ⟨before, after, split, rfl⟩ := first
  obtain ⟨before', after', split', rfl⟩ := second
  have behind : text.drop (before.length + p.length) = after := by
    rw [split, ← append_assoc, ← length_append, drop_left]
  have front : before ++ p ++ after.takeWhile isBlank = before' := by
    have whole : before ++ p ++ after.takeWhile isBlank ++ after.dropWhile isBlank =
        before' ++ (q ++ after') := by
      rw [← split', append_assoc, takeWhile_append_dropWhile, append_assoc, ← split]
    refine (append_inj whole ?_).1
    dsimp only at next
    rw [next, skipBlanks, behind, length_append, length_append]
  refine ⟨after.takeWhile isBlank, fun c hc => mem_takeWhile_imp hc, before, after', ?_, ?_⟩
  · rw [split', ← front]
    simp
  · rw [CharRange.through, CharRange.mk.injEq, ← front]
    simp only [length_append, true_and]
    omega

theorem Held.delimiter {d : Token} (h : Held text a (d :: ts)) {c : Char}
    (sign : delimiter? d = some c) : CharRange.Holds ⟨d.span.start, d.span.start + 1⟩ text [c] := by
  have fits := h.tiled.2.1
  have here := h.holds d mem_cons_self
  unfold delimiter? at sign
  split at sign
  · next kind =>
    obtain rfl := Option.some.inj sign
    rw [fits.eq_sign kind (by decide)] at here
    simpa [signToken, TokenKind.sign] using here
  · next kind =>
    obtain rfl := Option.some.inj sign
    rw [fits.eq_sign kind (by decide)] at here
    simpa [signToken, TokenKind.sign] using here
  · simp at sign

theorem ArgumentWritten.held {x : Argument} (h : ArgumentWritten x ts)
    (held : Held text a ts) : ArgumentHeld text x := by
  cases h with
  | @number d t c value sign kind =>
    have here := held.holds t (by simp)
    exact ⟨fun _ => here, ⟨_, here, Or.inl rfl⟩, held.delimiter sign⟩
  | @name d t c sign kind =>
    have here := held.holds t (by simp)
    exact ⟨fun _ => here, ⟨_, here, Or.inl rfl⟩, held.delimiter sign⟩
  | @negative d m t c value sign minus kind =>
    refine ⟨by simp, ?_, held.delimiter sign⟩
    have minusSign := held.tail.tiled.2.1.eq_sign minus (by decide)
    have first := held.holds m (by simp)
    rw [show m.text = "-" by rw [minusSign]; rfl] at first
    obtain ⟨blanks, hblanks, here⟩ :=
      holds_through first (held.holds t (by simp)) held.tail.tail.tiled.1
    exact ⟨_, here, Or.inr ⟨blanks, t.text.toList, hblanks, by simp, rfl⟩⟩

theorem ArgumentsWritten.held (h : ArgumentsWritten xs ts) (held : Held text a ts) :
    ∀ x ∈ xs, ArgumentHeld text x := by
  induction h generalizing a with
  | nil => simp
  | cons first rest ih =>
    obtain ⟨here, b, behind⟩ := held.of_append
    exact forall_mem_cons.2 ⟨first.held here, ih behind⟩

theorem ArgumentsIn.le_start {a b : Nat} (h : ArgumentsIn a xs b) : ∀ x ∈ xs, a ≤ x.span.start := by
  induction xs generalizing a with
  | nil => simp
  | cons x xs ih =>
    obtain ⟨h₁, h₂, h₃, rest⟩ := h
    refine forall_mem_cons.2 ⟨by omega, fun y hy => ?_⟩
    have := ih rest y hy
    omega

theorem ArgumentsIn.pairwise {a b : Nat} (h : ArgumentsIn a xs b) :
    xs.Pairwise fun x y => x.span.stop ≤ y.span.start := by
  induction xs generalizing a with
  | nil => exact .nil
  | cons x xs ih => exact .cons h.2.2.2.le_start (ih h.2.2.2)

theorem ChainWritten.held {nameEnd chainEnd : Nat} (h : ChainWritten nameEnd xs chainEnd ts)
    (held : Held text a ts) : ArgumentsHeld text xs := by
  refine ⟨?_, (h.spaced held.spaced).pairwise⟩
  cases h with
  | absent => simp
  | bare colon => simp
  | full colon written => exact written.held held

/-- The issues of a formula quote the characters of its text at their ranges. -/
theorem aims_check (s : Checker) {level : Level} {f : Formula}
    (h : Written level f ts) (held : Held text a ts) :
    ∀ i ∈ f.check s, i.Aims value type text := by
  induction h generalizing a with
  | literal kind => simp [check]
  | name kind => simp [check]
  | negation minus operand ih => exact ih held.tail
  | @chain name xs chainEnd ts kind chain called =>
    have call : CallHeld text ⟨name.text, name.span, xs, ⟨name.span.start, chainEnd⟩⟩ :=
      ⟨held.liesIn (Written.chain kind chain called).covers, held.holds name (by simp),
        chain.held held.tail⟩
    exact fun i hi => (callIssue_of_mem hi).aims call (by simp)
  | @applied name opening closing xs chainEnd body ts us kind chain noBare opens inner closes ih =>
    obtain ⟨hchain, b, behind⟩ := held.tail.of_append
    have call : CallHeld text ⟨name.text, name.span, xs, ⟨name.span.start, closing.span.stop⟩⟩ :=
      ⟨held.liesIn (Written.applied kind chain noBare opens inner closes).covers,
        held.holds name (by simp), chain.held hchain⟩
    have brackets : Covers ⟨opening.span.start, closing.span.stop⟩ (opening :: (us ++ [closing])) :=
      ⟨opening, closing, rfl, by rw [← cons_append, getLast?_concat], rfl⟩
    have inside := behind.tail.of_append.1
    refine fun i hi => (callIssue_of_mem hi).aims call fun x hx => ?_
    rw [← Option.some.inj hx]
    exact ⟨behind.liesIn brackets, inside.liesIn inner.covers, ih inside⟩
  | ofBelow upper part ih => exact ih held
  | joined first operator second ih₁ ih₂ =>
    obtain ⟨hleft, b, behind⟩ := held.of_append
    exact forall_mem_append.2 ⟨ih₁ hleft, ih₂ behind.tail⟩

theorem aims_parse {source : String} {f : Formula} (h : parse source = .ok f) (s : Checker) :
    ∀ i ∈ f.check s, i.Aims value type source.toList := by
  obtain ⟨ts, scanned, written, -⟩ := parse_written h
  exact aims_check s written (held_scan scanned)

end Formula

/-! ## Tags -/

namespace RichText

variable {value : String} {type : FieldType}

/-- A tag of a value whose name and arguments stand in it at their ranges. -/
structure TagHeld (value : String) (tag : Tag) : Prop where
  mem : .tag tag ∈ segments value
  range : tag.range.LiesIn value.toList
  name : tag.nameRange.Holds value.toList tag.name.toList
  arguments : ∀ x ∈ tag.arguments, x.range.Holds value.toList x.text.toList

theorem tagHeld_of_mem {tag : Tag} (h : .tag tag ∈ segments value) : TagHeld value tag := by
  obtain ⟨before, inner, after, split, e⟩ := mem_segmentsFrom h
  rw [Nat.zero_add] at e
  have whole : value.toList = (before ++ ['<']) ++ (inner ++ '>' :: after) := by
    rw [split]
    simp
  have pieces : ∀ p ∈ splitPieces '=' (before.length + 1) inner,
      p.range.Holds value.toList p.text := by
    have := splitPieces_holds '=' (before ++ ['<']) inner ('>' :: after)
    rwa [← whole, length_append] at this
  obtain ⟨first, rest, cut, -⟩ := splitPieces_spec '=' (before.length + 1) inner
  rw [cut] at pieces
  obtain ⟨name, arguments⟩ := forall_mem_cons.1 pieces
  refine ⟨h, ?_, ?_, ?_⟩
  · rw [e, split]
    constructor
    · show before.length ≤ before.length + inner.length + 2
      omega
    · show before.length + inner.length + 2 ≤ _
      simp only [length_append, length_cons]
      omega
  · rw [e, readTag, cut]
    simpa using name.trim
  · intro x hx
    rw [e, readTag, cut] at hx
    obtain ⟨p, hp, rfl⟩ := mem_map.1 hx
    simpa using arguments p hp

theorem TagIssue.aims {s : Checker} {tag : Tag} {i : Issue} (hi : TagIssue s tag i)
    (h : TagHeld value tag) : i.Aims value type value.toList := by
  cases hi with
  | nested hr =>
    refine Issue.Quiet.aims ⟨rfl, rfl⟩ ?_
    rcases hr with rfl | ⟨x, hx, rfl⟩
    · exact h.range
    · exact (h.arguments x hx).liesIn
  | unknown => exact ⟨tag.name, h.name, ⟨tag, h.mem, rfl⟩, by simp [Issue.ofUnknown]⟩
  | @unknownCommand first piece hx e =>
    subst e
    have here : (Piece.mk first.text.toList first.range).range.Holds value.toList
        first.text.toList := h.arguments first hx
    exact ⟨_, by simpa [Issue.ofUnknown] using here.trim, rfl⟩
  | style => exact ⟨tag.name, h.name, ⟨tag, h.mem, rfl⟩, rfl⟩
  | @formula x f i hx parsed hi => exact (Formula.aims_parse parsed _ i hi).shift (h.arguments x hx)
  | @noFormula x fault place hx parsed e =>
    have size := (h.arguments x hx).stop_eq
    have upper := (h.arguments x hx).liesIn.upper
    rw [String.length_toList] at size
    exact Issue.Quiet.aims ⟨rfl, rfl⟩ ⟨Nat.le_max_right _ _, by dsimp only; omega⟩
  | _ => exact Issue.Quiet.aims ⟨rfl, rfl⟩ h.range

end RichText

/-! ## Values -/

section

variable {value : String} {type : FieldType}

theorem offers_partsCode (type : FieldType) : (partsCode type).offers = false := by
  unfold partsCode
  split <;> rfl

theorem components_hold (value : String) :
    ∀ p ∈ components value, p.range.Holds value.toList p.text := by
  intro p hp
  obtain ⟨q, hq, rfl⟩ := mem_map.1 hp
  have here := splitPieces_holds ',' [] value.toList [] q hq
  rw [append_nil] at here
  exact here.trim

theorem trimmedPiece_holds (value : String) :
    (trimmedPiece value).range.Holds value.toList (trimmedPiece value).text := by
  apply CharRange.Holds.trim (p := ⟨value.toList, ⟨0, value.length⟩⟩)
  refine ⟨[], [], by simp, ?_⟩
  rw [String.length_toList, length_nil, Nat.zero_add]

theorem PiecesIn.pairwise {a b : Nat} {ps : List Piece} (h : PiecesIn a ps b) :
    ps.Pairwise fun p q => p.range.stop ≤ q.range.start := by
  induction ps generalizing a with
  | nil => exact .nil
  | cons p ps ih => exact .cons (fun q hq => h.2.2.start_le hq) (ih h.2.2)

/-- From the first of some components to the last. -/
theorem piecesRange_liesIn {group : List Piece} (h : group.Sublist (components value)) :
    (piecesRange group).LiesIn value.toList := by
  have ordered := (piecesIn_components value).pairwise.sublist h
  cases group with
  | nil => exact ⟨Nat.le_refl 0, Nat.zero_le _⟩
  | cons p ps =>
    have lies := liesIn_to_last (·.range)
      (fun q hq => (components_hold value q (h.subset hq)).liesIn) ordered
    rw [piecesRange, getLast?_cons]
    cases e : ps.getLast? <;> simpa [e] using lies

theorem aims_valueIssues (schema : Schema) (options : Options) (key value : String)
    (field : Field) :
    ∀ i ∈ valueIssues schema options key value field, i.Aims value field.type value.toList := by
  intro i hi
  have piece {p : Piece} (hp : p = trimmedPiece value ∨ p ∈ components value) :
      p.range.Holds value.toList p.text := by
    rcases hp with rfl | hp
    · exact trimmedPiece_holds value
    · exact components_hold value p hp
  cases valueIssue_of_mem hi with
  | formula parsed hi => exact Formula.aims_parse parsed _ i hi
  | noFormula =>
    refine Issue.Quiet.aims ⟨rfl, rfl⟩ ⟨by dsimp only; omega, ?_⟩
    exact Nat.min_le_right _ _
  | tag _ ht hi => exact hi.aims (RichText.tagHeld_of_mem ht)
  | word _ he hp => exact Issue.Quiet.aims ⟨by cases he <;> rfl, rfl⟩ (piece hp).liesIn
  | @member name p ht hp =>
    exact ⟨String.ofList p.text, by simpa [Issue.ofUnknown] using piece hp, name, ht, rfl⟩
  | count _ _ hw =>
    refine Issue.Quiet.aims ⟨offers_partsCode _, rfl⟩ ?_
    rcases hw with rfl | ⟨group, hg, rfl⟩
    · exact (trimmedPiece_holds value).liesIn
    · exact piecesRange_liesIn (chunks_sublist hg)
  | groups => exact Issue.Quiet.aims ⟨offers_partsCode _, rfl⟩ (trimmedPiece_holds value).liesIn
  | component _ _ hp =>
    exact Issue.Quiet.aims ⟨offers_partsCode _, rfl⟩ (components_hold value _ hp).liesIn

end

/-- What an issue of a value quotes stands in the value at the issue's range, and an issue that
quotes nothing offers nothing. -/
theorem issue_quotes_its_range (schema : Schema) (options : Options) (key value : String)
    (field : Field) : ∀ issue ∈ valueIssues schema options key value field,
      ∃ quoted : String, issue.range.Holds value.toList quoted.toList ∧
        issue.Quotes value field.type quoted :=
  aims_valueIssues schema options key value field

/-- An operator that takes a formula. -/
def wrapper : Operator :=
  ⟨"f", [], none, false, [[⟨"body", .formula⟩]], [], none, []⟩

def wrapperSchema : Schema :=
  { Schema.empty with formulas := ⟨none, .build id Operator.allNames [wrapper]⟩ }

/-- A name that is not known, as a call inside a chain and once more behind it. -/
theorem issue_quotes_its_range_in_chain :
    ∃ i ∈ valueIssues wrapperSchema {} "k" "f:g:1 + g:2" ⟨"k", .formula, false, none, false⟩,
      i.code = .unknownOperator ∧ i.range = ⟨2, 3⟩ ∧ ∃ quoted : String,
        i.range.Holds "f:g:1 + g:2".toList quoted.toList ∧
          i.Quotes "f:g:1 + g:2" .formula quoted := by
  have places : (valueIssues wrapperSchema {} "k" "f:g:1 + g:2"
      ⟨"k", .formula, false, none, false⟩).map (fun i => (i.code, i.range)) =
        [(.unknownOperator, ⟨2, 3⟩), (.unknownOperator, ⟨8, 9⟩)] := by
    decide +kernel
  obtain ⟨i, hi, e⟩ := mem_map.1 (places ▸ mem_cons_self)
  obtain ⟨code, range⟩ := Prod.mk.inj e
  exact ⟨i, hi, code, range, issue_quotes_its_range _ _ _ _ _ i hi⟩

end ModCheck
