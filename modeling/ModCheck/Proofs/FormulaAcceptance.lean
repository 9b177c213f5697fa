import ModCheck.Proofs.FormulaReading

/-
  Which formulas are read. `Derives` is the grammar of formulas. It is ambiguous where a colon may
  stand alone: the minus sign behind it may subtract or belong to a number. The readers take it for
  the sign of a number, and refuse it before anything else. Main statement: `parse_accepts_iff`, a
  text is read just if the grammar derives its tokens, no parenthesis stands behind a colon, and a
  minus sign behind a colon stands before a number.
-/

namespace ModCheck.Formula

open List

variable {f : Formula} {level : Level} {ts us : List Token}

/-! ## The grammar -/

/-- The parts of a formula. -/
inductive Symbol where
  | sum
  | product
  | signed
  | operand
  | optionalChain
  | optionalBody
  | chain
  | arguments
  | argument
deriving DecidableEq, Repr

/-- The tokens that make up a part:

    sum       := product (('+' | '-') product)*
    product   := signed (('*' | '/') signed)*
    signed    := '-' signed | operand
    operand   := NUMBER | NAME [chain] ['(' sum ')']
    chain     := ':' [arguments]
    arguments := argument ((':' | ',') argument)*
    argument  := ['-'] NUMBER | NAME
-/
inductive Derives : Symbol → List Token → Prop
  | ofProduct {ts : List Token} (product : Derives .product ts) : Derives .sum ts
  | sum {ts us : List Token} {sign : Token} (first : Derives .sum ts)
      (joined : sign.kind = .plus ∨ sign.kind = .minus) (second : Derives .product us) :
      Derives .sum (ts ++ sign :: us)
  | ofSigned {ts : List Token} (signed : Derives .signed ts) : Derives .product ts
  | product {ts us : List Token} {sign : Token} (first : Derives .product ts)
      (joined : sign.kind = .star ∨ sign.kind = .slash) (second : Derives .signed us) :
      Derives .product (ts ++ sign :: us)
  | minus {m : Token} {ts : List Token} (minus : m.kind = .minus) (operand : Derives .signed ts) :
      Derives .signed (m :: ts)
  | ofOperand {ts : List Token} (operand : Derives .operand ts) : Derives .signed ts
  | number {t : Token} {value : Binary64} (kind : t.kind = .number value) : Derives .operand [t]
  | name {name : Token} {ts us : List Token} (kind : name.kind = .ident)
      (chain : Derives .optionalChain ts) (body : Derives .optionalBody us) :
      Derives .operand (name :: (ts ++ us))
  | noChain : Derives .optionalChain []
  | someChain {ts : List Token} (chain : Derives .chain ts) : Derives .optionalChain ts
  | noBody : Derives .optionalBody []
  | someBody {opening closing : Token} {ts : List Token} (opens : opening.kind = .leftParen)
      (inner : Derives .sum ts) (closes : closing.kind = .rightParen) :
      Derives .optionalBody (opening :: (ts ++ [closing]))
  | bareChain {t : Token} (colon : t.kind = .colon) : Derives .chain [t]
  | fullChain {t : Token} {ts : List Token} (colon : t.kind = .colon)
      (arguments : Derives .arguments ts) : Derives .chain (t :: ts)
  | lastArgument {ts : List Token} (argument : Derives .argument ts) : Derives .arguments ts
  | moreArguments {ts us : List Token} {d : Token} (first : Derives .argument ts)
      (delimiter : d.kind = .colon ∨ d.kind = .comma) (rest : Derives .arguments us) :
      Derives .arguments (ts ++ d :: us)
  | numberArgument {t : Token} {value : Binary64} (kind : t.kind = .number value) :
      Derives .argument [t]
  | negativeArgument {m t : Token} {value : Binary64} (minus : m.kind = .minus)
      (kind : t.kind = .number value) : Derives .argument [m, t]
  | nameArgument {t : Token} (kind : t.kind = .ident) : Derives .argument [t]

/-! ## From the grammar to a tree -/

theorem Written.ends {level : Level} {f : Formula} {ts : List Token} (h : Written level f ts)
    (ends : f.endsInColon = true) : ∃ us c, ts = us ++ [c] ∧ c.kind = .colon := by
  induction h with
  | literal kind => simp [endsInColon] at ends
  | name kind => simp [endsInColon] at ends
  | @negation m f ts minus operand ih =>
    obtain ⟨us, c, rfl, hc⟩ := ih ends
    exact ⟨m :: us, c, rfl, hc⟩
  | @chain name xs chainEnd ts kind chain called =>
    cases chain with
    | absent => exact absurd rfl called
    | @bare c colon => exact ⟨[name], c, rfl, colon⟩
    | full colon written => simp [endsInColon] at ends
  | applied kind chain noBare opens inner closes ih => simp [endsInColon] at ends
  | ofBelow upper part ih => exact ih ends
  | @joined level left right ts us sign op first operator second ih₁ ih₂ =>
    obtain ⟨vs, c, rfl, hc⟩ := ih₂ ends
    exact ⟨ts ++ sign :: vs, c, by simp, hc⟩

theorem undivided_join {op : BinaryOperator} {left right : Formula}
    (top : op = .subtract → left.endsInColon = false) (first : ∀ g ∈ left.nodes, g.Undivided)
    (second : ∀ g ∈ right.nodes, g.Undivided) : ∀ g ∈ (join op left right).nodes, g.Undivided := by
  intro g hg
  rcases mem_cons.1 hg with rfl | hg
  · cases op with
    | subtract => exact top rfl
    | _ => trivial
  · rcases mem_append.1 hg with hg | hg
    · exact first g hg
    · exact second g hg

variable {m t : Token} {value : Binary64}

/-- A number with its sign is an argument of the chain whose colon stood alone at the end. -/
theorem Greedy.signed (h : Greedy level f ts) (ends : f.endsInColon = true)
    (minus : m.kind = .minus) (kind : t.kind = .number value) :
    ∃ g, Greedy level g (ts ++ [m, t]) := by
  obtain ⟨written, undivided⟩ := h
  induction written with
  | literal kind => simp [endsInColon] at ends
  | name kind => simp [endsInColon] at ends
  | @negation n f ts hn operand ih =>
    obtain ⟨g, written, undivided⟩ := ih ends fun g hg => undivided g (mem_cons_of_mem _ hg)
    exact ⟨_, .negation hn written, forall_mem_cons.2 ⟨trivial, undivided⟩⟩
  | @chain name xs chainEnd ts hname chain called =>
    cases chain with
    | absent => exact absurd rfl called
    | @bare c colon =>
      have sign : delimiter? c = some ':' := by simp [delimiter?, colon]
      have argument : ArgumentsWritten ([] ++ [_]) [c, m, t] :=
        .cons (.negative sign minus kind) .nil
      exact ⟨_, .chain hname (.full colon argument) (cons_ne_nil _ _),
        forall_mem_singleton.2 trivial⟩
    | full colon written => simp [endsInColon] at ends
  | applied kind chain noBare opens inner closes ih => simp [endsInColon] at ends
  | ofBelow upper part ih =>
    obtain ⟨g, written, undivided⟩ := ih ends undivided
    exact ⟨g, .ofBelow upper written, undivided⟩
  | @joined level left right ts us sign op first operator second ih₁ ih₂ =>
    obtain ⟨top, left, right⟩ := undivided_of_join undivided
    obtain ⟨g, written, undivided⟩ := ih₂ ends right
    rw [append_assoc]
    exact ⟨_, .joined first operator written, undivided_join top left undivided⟩

theorem Written.ne_nil (h : Written level f ts) : ts ≠ [] := by
  rintro rfl
  obtain ⟨first, -, hfirst, -⟩ := h.covers
  simp at hfirst

/-- A product that starts with a number goes on with the product that ends with a colon. -/
theorem Greedy.join_product {g : Formula} (h : Greedy .product f ts) (ends : f.endsInColon = true)
    (minus : m.kind = .minus) (h' : Greedy level g us) (hlevel : level ≠ .sum)
    (hus : us.head? = some t) (kind : t.kind = .number value) :
    ∃ k, Greedy .product k (ts ++ m :: us) := by
  obtain ⟨written, undivided⟩ := h'
  induction written with
  | literal hk =>
    obtain rfl := Option.some.inj hus
    exact h.signed ends minus kind
  | name hk =>
    obtain rfl := Option.some.inj hus
    simp [hk] at kind
  | negation hm operand ih =>
    obtain rfl := Option.some.inj hus
    simp [hm] at kind
  | chain hname chain called =>
    obtain rfl := Option.some.inj hus
    simp [hname] at kind
  | applied hname chain noBare opens inner closes ih =>
    obtain rfl := Option.some.inj hus
    simp [hname] at kind
  | @ofBelow level f us upper part ih =>
    exact ih (by cases level <;> simp [Level.below]) hus undivided
  | @joined level left right us vs sign op first operator second ih₁ ih₂ =>
    obtain ⟨top, left, right⟩ := undivided_of_join undivided
    rw [head?_append_of_ne_nil _ first.ne_nil] at hus
    obtain ⟨k, written, inner⟩ := ih₁ hlevel hus left
    have e : ts ++ m :: (us ++ sign :: vs) = (ts ++ m :: us) ++ sign :: vs := by simp
    rw [e]
    obtain ⟨-, rfl⟩ := Level.operator?_eq_some operator
    cases op with
    | multiply | divide =>
      exact ⟨_, .joined written operator second, undivided_join (by simp) inner right⟩
    | _ => exact absurd rfl hlevel

theorem Greedy.join_sum {g : Formula} (h : Greedy .sum f ts) (ends : f.endsInColon = true)
    (minus : m.kind = .minus) (h' : Greedy .product g us) (hus : us.head? = some t)
    (kind : t.kind = .number value) : ∃ k, Greedy .sum k (ts ++ m :: us) := by
  obtain ⟨written, undivided⟩ := h
  cases written with
  | ofBelow upper part =>
    have first : Greedy .product f ts := ⟨part, undivided⟩
    obtain ⟨k, written, undivided⟩ := first.join_product ends minus h' (by decide) hus kind
    exact ⟨k, .ofBelow upper written, undivided⟩
  | joined first operator second =>
    obtain ⟨top, left, right⟩ := undivided_of_join undivided
    have last : Greedy .product _ _ := ⟨second, right⟩
    obtain ⟨k, written, undivided⟩ := last.join_product ends minus h' (by decide) hus kind
    rw [append_assoc]
    exact ⟨_, .joined first operator written, undivided_join top left undivided⟩

/-- The tree that a part of a formula stands for; arguments come behind a delimiter. -/
def Symbol.Formed : Symbol → List Token → Prop
  | .sum, ts => ∃ f, Greedy .sum f ts
  | .product, ts => ∃ f, Greedy .product f ts
  | .signed, ts => ∃ f, Greedy .operand f ts
  | .operand, ts => ∃ f, Greedy .operand f ts
  | .optionalChain, ts => ∀ nameEnd, ∃ xs chainEnd, ChainWritten nameEnd xs chainEnd ts
  | .optionalBody, ts => ts = [] ∨ ∃ opening body us closing, opening.kind = .leftParen ∧
      Greedy .sum body us ∧ closing.kind = .rightParen ∧ ts = opening :: (us ++ [closing])
  | .chain, ts => ∀ nameEnd, ∃ xs chainEnd, ChainWritten nameEnd xs chainEnd ts
  | .arguments, ts => ∀ d c, delimiter? d = some c → ∃ xs x, ArgumentsWritten (xs ++ [x]) (d :: ts)
  | .argument, ts => ∀ d c, delimiter? d = some c → ∃ x, ArgumentWritten x (d :: ts)

theorem exists_delimiter {d : Token} (h : d.kind = .colon ∨ d.kind = .comma) :
    ∃ c, delimiter? d = some c := by
  rcases h with h | h
  · exact ⟨':', by simp [delimiter?, h]⟩
  · exact ⟨',', by simp [delimiter?, h]⟩

theorem formed_name {name : Token} (kind : name.kind = .ident)
    (chain : Symbol.optionalChain.Formed ts) (body : Symbol.optionalBody.Formed us)
    (fit : ColonsFit (name :: (ts ++ us))) : Symbol.operand.Formed (name :: (ts ++ us)) := by
  obtain ⟨xs, chainEnd, chain⟩ := chain name.span.stop
  rcases body with rfl | ⟨opening, body, us, closing, opens, inner, closes, rfl⟩
  · rw [append_nil]
    by_cases hts : ts = []
    · subst hts
      exact ⟨_, .name kind, forall_mem_singleton.2 trivial⟩
    · exact ⟨_, .chain kind chain hts, forall_mem_singleton.2 trivial⟩
  · have noBare : xs = [] → ts = [] := by
      intro hxs
      cases chain with
      | absent => rfl
      | @bare c colon =>
        exact absurd opens (fit.body c opening ⟨[name], us ++ [closing], rfl⟩ colon)
      | full colon written => simp at hxs
    exact ⟨_, .applied kind chain noBare opens inner.written closes,
      forall_mem_cons.2 ⟨trivial, inner.undivided⟩⟩

theorem formed_sum {sign : Token} (first : Symbol.sum.Formed ts)
    (joined : sign.kind = .plus ∨ sign.kind = .minus) (second : Symbol.product.Formed us)
    (fit : ColonsFit (ts ++ sign :: us)) : Symbol.sum.Formed (ts ++ sign :: us) := by
  obtain ⟨f, first⟩ := first
  obtain ⟨g, second⟩ := second
  rcases joined with joined | joined
  · have add : Level.sum.operator? sign = some .add := by
      simp [Level.operator?, sumOperator?, joined]
    exact ⟨_, .joined first.written add second.written,
      undivided_join (by simp) first.undivided second.undivided⟩
  · have subtract : Level.sum.operator? sign = some .subtract := by
      simp [Level.operator?, sumOperator?, joined]
    cases ends : f.endsInColon with
    | false =>
      exact ⟨_, .joined first.written subtract second.written,
        undivided_join (fun _ => ends) first.undivided second.undivided⟩
    | true =>
      -- the minus sign behind the colon is that of a number
      obtain ⟨vs, c, rfl, colon⟩ := first.written.ends ends
      obtain ⟨t, us, rfl⟩ := exists_cons_of_ne_nil second.written.ne_nil
      obtain ⟨value, kind⟩ := fit.minus c sign t ⟨vs, us, by simp⟩ colon joined
      exact first.join_sum ends joined second rfl kind

/-- What the grammar derives is written, and read, if it fits behind every colon. -/
theorem Derives.formed {s : Symbol} (h : Derives s ts) (fit : ColonsFit ts) : s.Formed ts := by
  induction h with
  | ofProduct product ih =>
    obtain ⟨f, written, undivided⟩ := ih fit
    exact ⟨f, .ofBelow (by decide) written, undivided⟩
  | sum first joined second ih₁ ih₂ =>
    exact formed_sum (ih₁ fit.of_append.1) joined (ih₂ fit.of_append.2.tail) fit
  | ofSigned signed ih =>
    obtain ⟨f, written, undivided⟩ := ih fit
    exact ⟨f, .ofBelow (by decide) written, undivided⟩
  | @product ts us sign first joined second ih₁ ih₂ =>
    obtain ⟨f, first⟩ := ih₁ fit.of_append.1
    obtain ⟨g, second⟩ := ih₂ fit.of_append.2.tail
    obtain ⟨op, hop, hne⟩ : ∃ op, Level.product.operator? sign = some op ∧ op ≠ .subtract := by
      rcases joined with h | h
      · exact ⟨.multiply, by simp [Level.operator?, productOperator?, h], by decide⟩
      · exact ⟨.divide, by simp [Level.operator?, productOperator?, h], by decide⟩
    exact ⟨_, .joined first.written hop second.written,
      undivided_join (fun e => absurd e hne) first.undivided second.undivided⟩
  | minus minus operand ih =>
    obtain ⟨f, written, undivided⟩ := ih fit.tail
    exact ⟨_, .negation minus written, forall_mem_cons.2 ⟨trivial, undivided⟩⟩
  | ofOperand operand ih => exact ih fit
  | number kind => exact ⟨_, .literal kind, forall_mem_singleton.2 trivial⟩
  | name kind chain body ih₁ ih₂ =>
    exact formed_name kind (ih₁ fit.tail.of_append.1) (ih₂ fit.tail.of_append.2) fit
  | noChain => exact fun nameEnd => ⟨[], nameEnd, .absent⟩
  | someChain chain ih => exact ih fit
  | noBody => exact Or.inl rfl
  | @someBody opening closing ts opens inner closes ih =>
    obtain ⟨f, inner⟩ := ih fit.tail.of_append.1
    exact Or.inr ⟨opening, f, ts, closing, opens, inner, closes, rfl⟩
  | bareChain colon => exact fun nameEnd => ⟨[], _, .bare colon⟩
  | @fullChain t ts colon arguments ih =>
    intro nameEnd
    obtain ⟨xs, x, written⟩ := ih fit.tail t ':' (by simp [delimiter?, colon])
    exact ⟨xs ++ [x], _, .full colon written⟩
  | lastArgument argument ih =>
    intro d c hd
    obtain ⟨x, written⟩ := ih fit d c hd
    refine ⟨[], x, ?_⟩
    simpa using ArgumentsWritten.cons written .nil
  | moreArguments first delimiter rest ih₁ ih₂ =>
    intro d c hd
    obtain ⟨c', hd'⟩ := exists_delimiter delimiter
    obtain ⟨x, written⟩ := ih₁ fit.of_append.1 d c hd
    obtain ⟨xs, y, more⟩ := ih₂ fit.of_append.2.tail _ c' hd'
    exact ⟨x :: xs, y, .cons written more⟩
  | numberArgument kind => exact fun d c hd => ⟨_, .number hd kind⟩
  | negativeArgument minus kind => exact fun d c hd => ⟨_, .negative hd minus kind⟩
  | nameArgument kind => exact fun d c hd => ⟨_, .name hd kind⟩

/-! ## From a tree to the grammar -/

def Level.symbol : Level → Symbol
  | .sum => .sum
  | .product => .product
  | .operand => .signed

theorem delimiter_kind {d : Token} {c : Char} (h : delimiter? d = some c) :
    d.kind = .colon ∨ d.kind = .comma := by
  unfold delimiter? at h
  split at h
  · next hk => exact Or.inl hk
  · next hk => exact Or.inr hk
  · simp at h

theorem ArgumentWritten.derives {x : Argument} (h : ArgumentWritten x ts) :
    ∃ d us, ts = d :: us ∧ (d.kind = .colon ∨ d.kind = .comma) ∧ Derives .argument us := by
  cases h with
  | number sign kind => exact ⟨_, _, rfl, delimiter_kind sign, .numberArgument kind⟩
  | name sign kind => exact ⟨_, _, rfl, delimiter_kind sign, .nameArgument kind⟩
  | negative sign minus kind =>
    exact ⟨_, _, rfl, delimiter_kind sign, .negativeArgument minus kind⟩

theorem ArgumentsWritten.derives {xs : List Argument} (h : ArgumentsWritten xs ts) :
    ts = [] ∨ ∃ d us, ts = d :: us ∧ (d.kind = .colon ∨ d.kind = .comma) ∧
      Derives .arguments us := by
  induction h with
  | nil => exact Or.inl rfl
  | @cons x xs ts vs first rest ih =>
    obtain ⟨d, us, rfl, hd, argument⟩ := first.derives
    refine Or.inr ⟨d, us ++ vs, rfl, hd, ?_⟩
    rcases ih with rfl | ⟨d', vs, rfl, hd', arguments⟩
    · rw [append_nil]
      exact .lastArgument argument
    · exact .moreArguments argument hd' arguments

theorem ChainWritten.derives {nameEnd chainEnd : Nat} {xs : List Argument}
    (h : ChainWritten nameEnd xs chainEnd ts) : Derives .optionalChain ts := by
  cases h with
  | absent => exact .noChain
  | bare colon => exact .someChain (.bareChain colon)
  | full colon written =>
    rcases written.derives with h | ⟨d, us, h, -, arguments⟩
    · simp at h
    · obtain ⟨rfl, rfl⟩ := cons.inj h
      exact .someChain (.fullChain colon arguments)

theorem Written.derives (h : Written level f ts) : Derives level.symbol ts := by
  induction h with
  | literal kind => exact .ofOperand (.number kind)
  | name kind => exact .ofOperand (.name kind .noChain .noBody)
  | negation minus operand ih => exact .minus minus ih
  | chain kind chain called =>
    have operand := Derives.name kind chain.derives .noBody
    rw [append_nil] at operand
    exact .ofOperand operand
  | applied kind chain noBare opens inner closes ih =>
    exact .ofOperand (.name kind chain.derives (.someBody opens ih closes))
  | @ofBelow level f ts upper part ih =>
    cases level with
    | sum => exact .ofProduct ih
    | product => exact .ofSigned ih
    | operand => exact absurd rfl upper
  | @joined level left right ts us sign op first operator second ih₁ ih₂ =>
    obtain ⟨hk, rfl⟩ := Level.operator?_eq_some operator
    cases op with
    | add => exact .sum ih₁ (Or.inl hk) ih₂
    | subtract => exact .sum ih₁ (Or.inr hk) ih₂
    | multiply => exact .product ih₁ (Or.inl hk) ih₂
    | divide => exact .product ih₁ (Or.inr hk) ih₂

/-! ## The formulas that are read -/

/-- A text is read just if the grammar derives its tokens, no parenthesis stands behind a colon and
a minus sign behind a colon is that of a number. -/
theorem parse_accepts_iff (text : String) :
    (∃ f, parse text = .ok f) ↔
      ∃ ts, scan text = .ok ts ∧ Derives .sum ts ∧ NoBodyBehindColon ts ∧ MinusBeforeNumber ts := by
  constructor
  · rintro ⟨f, parsed⟩
    obtain ⟨ts, scanned, written, fit⟩ := parse_written parsed
    exact ⟨ts, scanned, written.derives, fit.body, fit.minus⟩
  · rintro ⟨ts, scanned, derived, body, minus⟩
    obtain ⟨f, greedy⟩ := derived.formed ⟨body, minus⟩
    exact ⟨f, greedy.parse_eq scanned⟩

/-- The grammar derives a name that is subtracted behind a lone colon, but it is not read. -/
theorem subtraction_behind_colon_refused :
    ∃ ts, scan "turn: - x" = .ok ts ∧ Derives .sum ts ∧ NoBodyBehindColon ts ∧
      parse "turn: - x" = .error (.missingArgument ':' 6) := by
  have scanned : scan "turn: - x" = .ok [⟨.ident, "turn", ⟨0, 4⟩⟩, ⟨.colon, ":", ⟨4, 5⟩⟩,
      ⟨.minus, "-", ⟨6, 7⟩⟩, ⟨.ident, "x", ⟨8, 9⟩⟩] := by
    decide +kernel
  refine ⟨_, scanned, ?_, ?_, ?_⟩
  · have turn : Derives .operand [⟨.ident, "turn", ⟨0, 4⟩⟩, ⟨.colon, ":", ⟨4, 5⟩⟩] :=
      .name rfl (.someChain (.bareChain rfl)) .noBody
    have x : Derives .operand [⟨.ident, "x", ⟨8, 9⟩⟩] := .name rfl .noChain .noBody
    exact .sum (.ofProduct (.ofSigned (.ofOperand turn))) (Or.inr rfl) (.ofSigned (.ofOperand x))
  · intro c p h hc hp
    simp only [infix_cons_iff, cons_prefix_cons, infix_nil] at h
    rcases h with ⟨rfl, rfl, -⟩ | ⟨rfl, rfl, -⟩ | ⟨rfl, rfl, -⟩ | h | h
    all_goals first | exact absurd hp (by decide) | simp at h
  · decide +kernel

end ModCheck.Formula
