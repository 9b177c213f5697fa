import ModCheck.Proofs.FormulaTree

/-
  Reading what is written. A formula that is written in tokens is read back from them, whatever
  may follow it (`Written.run_eq`), unless something is subtracted behind a colon that stands
  alone: there the reader expects an argument. So the tokens of a text decide what it is read as
  (`Greedy.parse_eq`).
-/

namespace ModCheck.Formula

open List

variable {chainEnd : Nat} {f left right : Formula} {level : Level} {name t : Token}
  {op : BinaryOperator} {rest ts us vs : List Token} {xs : List Argument}

/-! ## Trees without a colon before a minus sign -/

/-- Whether a formula ends with a colon that stands alone. -/
def endsInColon : Formula → Bool
  | .negation operand _ => operand.endsInColon
  | .binary _ _ right _ => right.endsInColon
  | .chain call => call.arguments.isEmpty
  | _ => false

/-- Nothing is subtracted from a formula that ends with a colon. -/
def Undivided : Formula → Prop
  | .binary .subtract left _ _ => left.endsInColon = false
  | _ => True

/-- A formula as the reader takes the tokens. -/
structure Greedy (level : Level) (f : Formula) (ts : List Token) : Prop where
  written : Written level f ts
  undivided : ∀ g ∈ f.nodes, g.Undivided

/-! ## Chains -/

/-- The first of the tokens, if any, is of none of the kinds. -/
def HeadNotIn (kinds : List TokenKind) (ts : List Token) : Prop :=
  ∀ t ∈ ts.head?, t.kind ∉ kinds

variable {stop : Nat}

theorem readAtom_eq {x : Argument} {d : Token} {c : Char} (h : ArgumentWritten x (d :: ts))
    (hd : delimiter? d = some c) (rest : List Token) :
    plain (readAtom stop c d.span.start (ts ++ rest)) = .ok (x, rest) := by
  cases h with
  | number sign kind =>
    obtain rfl := Option.some.inj (hd.symm.trans sign)
    simp [readAtom, kind, plain, Except.map]
  | name sign kind =>
    obtain rfl := Option.some.inj (hd.symm.trans sign)
    simp [readAtom, kind, plain, Except.map]
  | negative sign minus kind =>
    obtain rfl := Option.some.inj (hd.symm.trans sign)
    simp [readAtom, minus, kind, plain, Except.map]

theorem ArgumentWritten.exists_delimiter {x : Argument} (h : ArgumentWritten x ts) :
    ∃ d us, ts = d :: us ∧ delimiter? d = some x.delimiter := by
  cases h with
  | number sign kind => exact ⟨_, _, rfl, sign⟩
  | name sign kind => exact ⟨_, _, rfl, sign⟩
  | negative sign minus kind => exact ⟨_, _, rfl, sign⟩

theorem delimiter?_eq_none (h : t.kind ∉ [TokenKind.colon, .comma]) : delimiter? t = none := by
  unfold delimiter?
  split
  · next hk => simp [hk] at h
  · next hk => simp [hk] at h
  · rfl

theorem readAtoms_eq (h : ArgumentsWritten xs ts) (follow : HeadNotIn [.colon, .comma] rest) :
    plain (readAtoms stop (ts ++ rest)) = .ok (xs, rest) := by
  induction h with
  | nil =>
    cases rest with
    | nil => simp [readAtoms, plain, Except.map]
    | cons t rest =>
      rw [nil_append, plain_readAtoms_cons, delimiter?_eq_none (follow t rfl)]
  | @cons x xs ts us first more ih =>
    obtain ⟨d, ts, rfl, hd⟩ := first.exists_delimiter
    rw [append_assoc, cons_append, plain_readAtoms_cons, hd]
    dsimp only
    rw [readAtom_eq first hd (us ++ rest), andThen, ih, andThen]

/-- A chain with arguments does not end behind its colon. -/
theorem ArgumentsWritten.endsChain_eq_false (h : ArgumentsWritten xs ts) (hts : ts = t :: us)
    (rest : List Token) : endsChain (us ++ rest) = false := by
  cases h with
  | nil => simp at hts
  | cons first more =>
    cases first with
    | number sign kind =>
      obtain ⟨-, rfl⟩ := cons.inj hts
      simp [endsChain, kind]
    | name sign kind =>
      obtain ⟨-, rfl⟩ := cons.inj hts
      simp [endsChain, kind]
    | negative sign minus kind =>
      obtain ⟨-, rfl⟩ := cons.inj hts
      simp [endsChain, minus]

/-- What may follow a chain: no delimiter, and the end of a chain behind a colon alone. -/
theorem readChain_eq {nameEnd : Nat} (h : ChainWritten nameEnd xs chainEnd ts)
    (follow : HeadNotIn [.colon, .comma] rest) (bare : xs = [] → ts ≠ [] → endsChain rest = true) :
    plain (readChain stop nameEnd (ts ++ rest)) = .ok ((xs, chainEnd), rest) := by
  cases h with
  | absent =>
    cases rest with
    | nil => rfl
    | cons t rest =>
      have ht : t.kind ≠ .colon := fun e => follow t rfl (by simp [e])
      rw [nil_append, plain_readChain_cons, if_neg ht]
  | bare colon => simp [plain_readChain_cons, colon, bare rfl]
  | @full xs x t ts colon written =>
    have more := written.endsChain_eq_false rfl rest
    have read : plain (readAtoms stop (t :: (ts ++ rest))) = .ok (xs ++ [x], rest) :=
      readAtoms_eq written follow
    simp [plain_readChain_cons, colon, more, read, andThen]

/-! ## Reading what is written -/

/-- The kinds of token that go on with a part of a formula, so that none of them follows it. -/
def Level.goingOn : Level → List TokenKind
  | .sum => [.colon, .comma, .leftParen, .star, .slash]
  | _ => [.colon, .comma, .leftParen]

/-- Tokens that may follow a formula. -/
structure Follows (level : Level) (f : Formula) (rest : List Token) : Prop where
  free : HeadNotIn level.goingOn rest
  closed : f.endsInColon = true → endsChain rest = true

theorem HeadNotIn.mono {kinds kinds' : List TokenKind} (h : HeadNotIn kinds ts)
    (sub : kinds' ⊆ kinds) : HeadNotIn kinds' ts :=
  fun t ht hk => h t ht (sub hk)

theorem headNotIn_nil (kinds : List TokenKind) : HeadNotIn kinds [] := by
  simp [HeadNotIn]

theorem headNotIn_cons {kinds : List TokenKind} {kind : TokenKind} (ht : t.kind = kind)
    (hk : kind ∉ kinds) : HeadNotIn kinds (t :: ts) := by
  intro u hu
  obtain rfl := Option.some.inj hu
  rwa [ht]

/-- Where a chain ends, a formula does. -/
theorem follows_cons {kind : TokenKind} (ht : t.kind = kind) (free : kind ∉ level.goingOn)
    (ends : kind ∈ [TokenKind.rightParen, .plus, .star, .slash]) : Follows level f (t :: ts) := by
  refine ⟨headNotIn_cons ht free, fun _ => ?_⟩
  rw [← ht] at ends
  simpa [endsChain, or_assoc] using ends

theorem ChainWritten.startsCall {nameEnd chainEnd : Nat} {xs : List Argument} {ts : List Token}
    (h : ChainWritten nameEnd xs chainEnd ts) (called : ts ≠ []) (rest : List Token) :
    startsCall (ts ++ rest) = true := by
  cases h with
  | absent => exact absurd rfl called
  | bare colon => simp [Formula.startsCall, colon]
  | full colon written => simp [Formula.startsCall, colon]

theorem startsCall_eq_false (h : HeadNotIn [.colon, .comma, .leftParen] rest) :
    startsCall rest = false := by
  cases rest with
  | nil => rfl
  | cons t rest =>
    have ht := h t rfl
    simp only [mem_cons, not_or] at ht
    simp [startsCall, ht]

theorem undivided_of_join (h : ∀ g ∈ (join op left right).nodes, g.Undivided) :
    (op = .subtract → left.endsInColon = false) ∧ (∀ g ∈ left.nodes, g.Undivided) ∧
      ∀ g ∈ right.nodes, g.Undivided := by
  refine ⟨?_, fun g hg => h g ?_, fun g hg => h g ?_⟩
  · rintro rfl
    exact h _ mem_cons_self
  · exact mem_cons_of_mem _ (mem_append_left _ hg)
  · exact mem_cons_of_mem _ (mem_append_right _ hg)

/-- What follows a part of a level follows its last part of the level below, and does not go on with
that. -/
theorem Follows.below (h : Follows level f rest) :
    Follows level.below f rest ∧ ∀ t ∈ rest.head?, level.below.operator? t = none := by
  refine ⟨⟨h.free.mono (by cases level <;> simp [Level.below, Level.goingOn]), h.closed⟩,
    fun t ht => ?_⟩
  cases level with
  | sum =>
    have free := h.free t ht
    cases operator : Level.operator? .product t with
    | none => exact operator
    | some op =>
      obtain ⟨hk, hl⟩ := Level.operator?_eq_some operator
      cases op <;> simp [hk, operatorKind, operatorLevel, Level.goingOn] at free hl
  | _ => rfl

theorem run_rest_end (ends : ∀ t ∈ ts.head?, level.operator? t = none) :
    (Reader.rest level f).run stop ts = .ok (f, ts) := by
  cases ts with
  | nil => exact run_rest_nil level f
  | cons t ts => rw [run_rest_cons, ends t rfl]

theorem run_chain (kind : name.kind = .ident)
    (chain : ChainWritten name.span.stop xs chainEnd ts) (called : ts ≠ [])
    (follow : Follows .operand
      (.chain ⟨name.text, name.span, xs, ⟨name.span.start, chainEnd⟩⟩) rest) :
    (Reader.part .operand).run stop (name :: (ts ++ rest)) =
      .ok (.chain ⟨name.text, name.span, xs, ⟨name.span.start, chainEnd⟩⟩, rest) := by
  have read : plain (readChain stop name.span.stop (ts ++ rest)) = .ok ((xs, chainEnd), rest) :=
    readChain_eq chain (follow.free.mono (by simp [Level.goingOn]))
      fun hxs _ => follow.closed (by simp [endsInColon, hxs])
  rw [run_operand_cons, kind]
  rw [if_pos (chain.startsCall called rest), run_call, read]
  cases rest with
  | nil => rfl
  | cons t rest => exact if_neg fun e => follow.free t rfl (by simp [e, Level.goingOn])

theorem run_applied {opening closing : Token} {body : Formula} (kind : name.kind = .ident)
    (chain : ChainWritten name.span.stop xs chainEnd ts) (noBare : xs = [] → ts = [])
    (opens : opening.kind = .leftParen) (closes : closing.kind = .rightParen)
    (inner : (Reader.part .sum).run stop (us ++ closing :: rest) = .ok (body, closing :: rest)) :
    (Reader.part .operand).run stop (name :: (ts ++ opening :: (us ++ closing :: rest))) =
      .ok (.applied ⟨name.text, name.span, xs, ⟨name.span.start, closing.span.stop⟩⟩ body
        ⟨opening.span.start, closing.span.stop⟩, rest) := by
  have read : plain (readChain stop name.span.stop (ts ++ opening :: (us ++ closing :: rest))) =
      .ok ((xs, chainEnd), opening :: (us ++ closing :: rest)) :=
    readChain_eq chain (headNotIn_cons opens (by decide)) fun hxs hts => absurd (noBare hxs) hts
  have starts : startsCall (ts ++ opening :: (us ++ closing :: rest)) = true := by
    by_cases hts : ts = []
    · simp [hts, startsCall, opens]
    · exact chain.startsCall hts _
  rw [run_operand_cons, kind]
  rw [if_pos starts, run_call, read, andThen, readBody, if_pos opens, inner]
  exact if_pos closes

/-- A formula is read back from its tokens, whatever follows it; sums and products are read on from
it. -/
theorem Written.run_eq (h : Written level f ts) (stop : Nat)
    (undivided : ∀ g ∈ f.nodes, g.Undivided) (follow : Follows level f rest) :
    (Reader.part level).run stop (ts ++ rest) = (Reader.rest level f).run stop rest := by
  induction h generalizing rest with
  | literal kind =>
    rw [cons_append, run_operand_cons, kind]
    rfl
  | name kind =>
    have starts := startsCall_eq_false follow.free
    rw [cons_append, run_operand_cons, kind, nil_append, starts]
    rfl
  | @negation m f ts minus operand ih =>
    have inner := ih (fun g hg => undivided g (mem_cons_of_mem _ hg))
      ⟨follow.free, follow.closed⟩
    rw [cons_append, run_operand_cons, minus]
    rw [inner]
    rfl
  | chain kind chain called => exact run_chain kind chain called follow
  | @applied name opening closing xs chainEnd body ts us kind chain noBare opens inner closes ih =>
    have behind : Follows .sum body (closing :: rest) :=
      follows_cons closes (by decide) (by decide)
    have read := ih (fun g hg => undivided g (mem_cons_of_mem _ hg)) behind
    rw [run_rest_end (by simp [Level.operator?, sumOperator?, closes])] at read
    have whole := run_applied kind chain noBare opens closes read
    rw [cons_append, append_assoc, cons_append, append_assoc]
    exact whole
  | ofBelow upper part ih =>
    obtain ⟨behind, ends⟩ := follow.below
    rw [run_part upper, ih undivided behind, run_rest_end ends]
    rfl
  | @joined level left right ts us sign op first operator second ih₁ ih₂ =>
    obtain ⟨hsign, hlevel⟩ := Level.operator?_eq_some operator
    obtain ⟨top, hleft, hright⟩ := undivided_of_join undivided
    obtain ⟨⟨free, closed⟩, ends⟩ := follow.below
    have behind : Follows level left (sign :: (us ++ rest)) := by
      subst hlevel
      cases op with
      | subtract =>
        refine ⟨headNotIn_cons hsign (by decide), fun h => ?_⟩
        simp [top rfl] at h
      | _ => exact follows_cons hsign (by decide) (by decide)
    rw [append_assoc, cons_append, ih₁ hleft behind, run_rest_cons, operator]
    rw [ih₂ hright ⟨free, closed⟩, run_rest_end ends]
    rfl

/-- A formula that is written without a colon before a minus sign is what its text is read as. -/
theorem Greedy.parse_eq (h : Greedy .sum f ts) {text : String} (scanned : scan text = .ok ts) :
    parse text = .ok f := by
  have read := h.written.run_eq text.length h.undivided ⟨headNotIn_nil _, fun _ => rfl⟩
  rw [append_nil, run_rest_nil] at read
  have fewer := length_lt_of_run read
  rw [parse, scanned]
  dsimp only
  rw [ofTokens_eq, read, if_neg (by simpa using ne_nil_of_length_pos fewer)]

end ModCheck.Formula
