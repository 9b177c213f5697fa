import Mathlib.Data.List.Infix
import ModCheck.Proofs.FormulaGrammar

/-
  How reading a formula ends. A fault is at one of the tokens or at the end of the text, and names
  nothing but a token or a delimiter. Otherwise what was read is written in the tokens passed over,
  in which no parenthesis stands behind a colon, and a minus sign only before a number. Main
  statement: `run_outcome`, one induction over all readers.
-/

namespace ModCheck.Formula

open List

variable {fault : Fault} {t : Token} {rest ts us : List Token}

/-! ## Behind a colon -/

/-- No parenthesis stands right behind a colon. -/
def NoBodyBehindColon (ts : List Token) : Prop :=
  ∀ c p, [c, p] <:+: ts → c.kind = .colon → p.kind ≠ .leftParen

/-- A minus sign right behind a colon has a number behind it. -/
def MinusBeforeNumber (ts : List Token) : Prop :=
  ∀ c m t, [c, m, t] <:+: ts → c.kind = .colon → m.kind = .minus → ∃ value, t.kind = .number value

/-- Tokens that the readers take behind every colon. -/
structure ColonsFit (ts : List Token) : Prop where
  body : NoBodyBehindColon ts
  minus : MinusBeforeNumber ts

theorem ColonsFit.of_infix (h : ColonsFit ts) (part : us <:+: ts) : ColonsFit us :=
  ⟨fun c p hp => h.body c p (hp.trans part), fun c m t ht => h.minus c m t (ht.trans part)⟩

theorem ColonsFit.of_append (h : ColonsFit (ts ++ us)) : ColonsFit ts ∧ ColonsFit us :=
  ⟨h.of_infix (prefix_append ts us).isInfix, h.of_infix (suffix_append ts us).isInfix⟩

theorem ColonsFit.tail (h : ColonsFit (t :: ts)) : ColonsFit ts :=
  h.of_infix (suffix_cons t ts).isInfix

/-- What may stand behind a colon. -/
def BehindColon : List Token → Prop
  | [] => True
  | p :: ts =>
    p.kind ≠ .leftParen ∧ (p.kind = .minus → ∀ t ∈ ts.head?, ∃ value, t.kind = .number value)

theorem colonsFit_nil : ColonsFit [] := by
  constructor
  · intro c p h
    simp at h
  · intro c m t h
    simp at h

theorem ColonsFit.cons (fit : ColonsFit ts) (behind : t.kind = .colon → BehindColon ts) :
    ColonsFit (t :: ts) := by
  constructor
  · intro c p h hc
    rcases infix_cons_iff.1 h with h | h
    · obtain ⟨us, e⟩ := h
      obtain ⟨rfl, rfl⟩ := cons.inj e
      exact (behind hc).1
    · exact fit.body c p h hc
  · intro c m u h hc hm
    rcases infix_cons_iff.1 h with h | h
    · obtain ⟨us, e⟩ := h
      obtain ⟨rfl, rfl⟩ := cons.inj e
      exact (behind hc).2 hm u rfl
    · exact fit.minus c m u h hc hm

theorem ColonsFit.cons_of_ne (fit : ColonsFit ts) {kind : TokenKind} (ht : t.kind = kind)
    (hk : kind ≠ .colon) : ColonsFit (t :: ts) :=
  fit.cons fun e => absurd (ht.symm.trans e) hk

theorem behindColon_of_endsChain (h : endsChain ts = true) : BehindColon ts := by
  cases ts with
  | nil => trivial
  | cons t ts =>
    constructor
    · intro e
      simp [endsChain, e] at h
    · intro e
      simp [endsChain, e] at h

theorem ArgumentWritten.colonsFit {x : Argument} (h : ArgumentWritten x ts) (fit : ColonsFit rest) :
    ColonsFit (ts ++ rest) := by
  cases h with
  | number sign kind =>
    refine (fit.cons_of_ne kind (by simp)).cons fun _ => ⟨?_, ?_⟩
    · simp [kind]
    · simp [kind]
  | name sign kind =>
    refine (fit.cons_of_ne kind (by simp)).cons fun _ => ⟨?_, ?_⟩
    · simp [kind]
    · simp [kind]
  | @negative d m t c value sign minus kind =>
    refine ((fit.cons_of_ne kind (by simp)).cons_of_ne minus (by simp)).cons fun _ => ⟨?_, ?_⟩
    · simp [minus]
    · intro _ u hu
      obtain rfl := Option.some.inj hu
      exact ⟨value, kind⟩

theorem ArgumentsWritten.colonsFit {xs : List Argument} (h : ArgumentsWritten xs ts)
    (fit : ColonsFit rest) : ColonsFit (ts ++ rest) := by
  induction h with
  | nil => exact fit
  | cons first more ih =>
    rw [append_assoc]
    exact first.colonsFit ih

/-! ## What a reader does -/

/-- A fault at one of the tokens, or at the end of the text. -/
def Fault.At (stop : Nat) (ts : List Token) (fault : Fault) : Prop :=
  fault.offset = stop ∨ ∃ t ∈ ts, fault.offset = t.span.start

/-- What a fault names: one of the tokens, or a sign that can stand between arguments. -/
def Fault.Named (ts : List Token) : Fault → Prop
  | .unexpectedToken text _ => ∃ t ∈ ts, t.text = text
  | .missingArgument delimiter _ => delimiter = ':' ∨ delimiter = ','
  | .unexpectedChar _ _ => False
  | .invalidNumber _ _ => False
  | _ => True

/-- A fault that reading tokens can end in. -/
structure Fault.Raised (stop : Nat) (ts : List Token) (fault : Fault) : Prop where
  place : fault.At stop ts
  named : fault.Named ts

/-- How reading from `ts` ends: in a fault there, or with something `made` of the tokens before
those left. All tokens fit if those left do. -/
def Outcome {α : Type} (stop : Nat) (made : α → List Token → List Token → Prop) (ts : List Token) :
    Read α → Prop
  | .error fault => fault.Raised stop ts
  | .ok (x, rest) => ∃ used, ts = used ++ rest ∧ made x used rest ∧ (ColonsFit rest → ColonsFit ts)

variable {stop : Nat}

theorem Fault.At.mono (h : fault.At stop us) (part : us <:+ ts) : fault.At stop ts := by
  rcases h with h | ⟨t, ht, h⟩
  · exact Or.inl h
  · exact Or.inr ⟨t, part.subset ht, h⟩

theorem Fault.Named.mono (h : fault.Named us) (part : us <:+ ts) : fault.Named ts := by
  cases fault with
  | unexpectedToken text offset =>
    obtain ⟨t, ht, e⟩ := h
    exact ⟨t, part.subset ht, e⟩
  | _ => exact h

theorem Fault.Raised.mono (h : fault.Raised stop us) (part : us <:+ ts) : fault.Raised stop ts :=
  ⟨h.place.mono part, h.named.mono part⟩

theorem Fault.raised_head (h : fault.offset = t.span.start)
    (named : fault.Named (t :: ts)) : fault.Raised stop (t :: ts) :=
  ⟨Or.inr ⟨t, mem_cons_self, h⟩, named⟩

theorem delimiter?_eq_some {c : Char} (h : delimiter? t = some c) : c = ':' ∨ c = ',' := by
  unfold delimiter? at h
  split at h
  · exact Or.inl (Option.some.inj h).symm
  · exact Or.inr (Option.some.inj h).symm
  · simp at h

section

variable {α β : Type} {made : α → List Token → List Token → Prop}
  {made' : β → List Token → List Token → Prop} {read : Read α}

/-- What is read next is made of the tokens that come next. -/
theorem Outcome.andThen (h : Outcome stop made ts read) {more : α → List Token → Read β}
    (next : ∀ x used us, ts = used ++ us → made x used us → read = .ok (x, us) →
      Outcome stop (fun y used' => made' y (used ++ used')) us (more x us)) :
    Outcome stop made' ts (andThen read more) := by
  rcases read with fault | ⟨x, us⟩
  · exact h
  · obtain ⟨used, e, hx, fit⟩ := h
    have last := next x used us e hx rfl
    rw [Formula.andThen]
    generalize more x us = result at last ⊢
    rcases result with fault | ⟨y, vs⟩
    · exact Fault.Raised.mono last ⟨used, e.symm⟩
    · obtain ⟨used', rfl, hy, fit'⟩ := last
      exact ⟨used ++ used', by rw [e, append_assoc], hy, fun h => fit (fit' h)⟩

theorem Outcome.cons {made' : α → List Token → List Token → Prop} (h : Outcome stop made ts read)
    (step : ∀ x used rest, ts = used ++ rest → made x used rest → made' x (t :: used) rest ∧
      ((ColonsFit rest → ColonsFit ts) → ColonsFit rest → ColonsFit (t :: ts))) :
    Outcome stop made' (t :: ts) read := by
  rcases read with fault | ⟨x, us⟩
  · exact Fault.Raised.mono h (suffix_cons t ts)
  · obtain ⟨used, rfl, hx, fit⟩ := h
    obtain ⟨hx', fit'⟩ := step x used us rfl hx
    exact ⟨t :: used, rfl, hx', fit' fit⟩

theorem Outcome.imp {made' : α → List Token → List Token → Prop} (h : Outcome stop made ts read)
    (imp : ∀ x used rest, made x used rest → made' x used rest) : Outcome stop made' ts read := by
  rcases read with fault | ⟨x, us⟩
  · exact h
  · obtain ⟨used, e, hx, fit⟩ := h
    exact ⟨used, e, imp x used us hx, fit⟩

theorem Outcome.map (h : Outcome stop made ts read) {g : α → β}
    (imp : ∀ x used rest, made x used rest → made' (g x) used rest) :
    Outcome stop made' ts (Formula.andThen read fun x us => .ok (g x, us)) := by
  rcases read with fault | ⟨x, us⟩
  · exact h
  · obtain ⟨used, e, hx, fit⟩ := h
    exact ⟨used, e, imp x used us hx, fit⟩

theorem Outcome.done {x : α} (h : made x [] ts) : Outcome stop made ts (.ok (x, ts)) :=
  ⟨[], rfl, h, id⟩

end

/-! ## Chains -/

theorem readAtom_outcome (stop : Nat) {d : Token} {c : Char} (hd : delimiter? d = some c)
    (ts : List Token) :
    Outcome stop (fun x used _ => ArgumentWritten x (d :: used)) ts
      (plain (readAtom stop c d.span.start ts)) := by
  have hc := delimiter?_eq_some hd
  have made (used : List Token) {x : Argument} {rest : List Token}
      (h : ArgumentWritten x (d :: used)) :
      Outcome stop (fun x used _ => ArgumentWritten x (d :: used)) (used ++ rest) (.ok (x, rest)) :=
    ⟨used, rfl, h, fun fit => (h.colonsFit fit).tail⟩
  cases ts with
  | nil => exact ⟨Or.inl rfl, hc⟩
  | cons t ts =>
    rw [readAtom.eq_def]
    dsimp only
    cases hk : t.kind with
    | number value => exact made [t] (.number hd hk)
    | ident => exact made [t] (.name hd hk)
    | minus =>
      cases ts with
      | nil => exact Fault.raised_head rfl hc
      | cons n us =>
        cases hn : n.kind with
        | number value =>
          simp only [hn]
          exact made [t, n] (.negative hd hk hn)
        | _ =>
          simp only [hn]
          exact Fault.raised_head rfl hc
    | leftParen => exact Fault.raised_head rfl trivial
    | _ => exact Fault.raised_head rfl hc

theorem readAtoms_outcome (ts : List Token) :
    Outcome stop (fun xs used rest => ArgumentsWritten xs used ∧
      (xs = [] → ∀ t ∈ rest.head?, delimiter? t = none)) ts (plain (readAtoms stop ts)) := by
  cases ts with
  | nil =>
    rw [readAtoms]
    exact .done ⟨.nil, by simp⟩
  | cons t ts =>
    rw [plain_readAtoms_cons]
    cases hd : delimiter? t with
    | none => exact .done ⟨.nil, by simpa using hd⟩
    | some c =>
      have first := readAtom_outcome stop hd ts
      have both : Outcome stop (fun xs used _ => ArgumentsWritten xs (t :: used) ∧ xs ≠ []) ts _ :=
        first.andThen fun x used us e hx _ =>
          have : us.length < (t :: ts).length := by
            rw [e, length_cons, length_append]
            omega
          (readAtoms_outcome us).map fun xs used' vs hxs => ⟨.cons hx hxs.1, cons_ne_nil _ _⟩
      refine both.cons fun xs used rest e h => ⟨⟨h.1, fun hxs => absurd hxs h.2⟩, fun _ fit => ?_⟩
      rw [e]
      exact h.1.colonsFit fit
termination_by ts.length

theorem ArgumentsWritten.ne_nil {xs : List Argument} (h : ArgumentsWritten xs ts) (hx : xs ≠ []) :
    ts ≠ [] := by
  cases h with
  | nil => exact absurd rfl hx
  | cons first rest => cases first <;> simp

/-- The chain of a call; a colon always belongs to it, and stands alone only where a chain can
end. -/
def ChainMade (nameEnd : Nat) (chain : List Argument × Nat) (used rest : List Token) : Prop :=
  ChainWritten nameEnd chain.1 chain.2 used ∧ (used = [] → ∀ t ∈ rest.head?, t.kind ≠ .colon) ∧
    (chain.1 = [] → used = [] ∨ endsChain rest = true)

theorem readChain_outcome (nameEnd : Nat) (ts : List Token) :
    Outcome stop (ChainMade nameEnd) ts (plain (readChain stop nameEnd ts)) := by
  cases ts with
  | nil => exact .done ⟨.absent, by simp, fun _ => Or.inl rfl⟩
  | cons t ts =>
    rw [plain_readChain_cons]
    by_cases colon : t.kind = .colon
    · rw [if_pos colon]
      have sign : delimiter? t = some ':' := by simp [delimiter?, colon]
      split
      · next ends =>
        refine ⟨[t], rfl, ⟨.bare colon, by simp, fun _ => Or.inr ends⟩, fun fit => ?_⟩
        exact fit.cons fun _ => behindColon_of_endsChain ends
      · next ends =>
        refine (readAtoms_outcome (t :: ts)).andThen fun xs used us e ⟨written, ends⟩ _ => ?_
        have hne : xs ≠ [] := by
          rintro rfl
          cases written
          obtain rfl : t :: ts = us := e
          simp [sign] at ends
        obtain ⟨u, used, rfl⟩ := exists_cons_of_ne_nil (written.ne_nil hne)
        obtain ⟨rfl, -⟩ := cons_eq_cons.1 e
        obtain ⟨ys, y, rfl⟩ := (eq_nil_or_concat' xs).resolve_left hne
        refine .done ⟨?_, by simp, fun h => absurd h hne⟩
        simpa using ChainWritten.full colon written
    · rw [if_neg colon]
      exact .done ⟨.absent, by simpa using colon, fun _ => Or.inl rfl⟩

/-! ## Formulas -/

/-- What a reader makes of the tokens it passes over. -/
def Reader.Makes : Reader → Formula → List Token → List Token → Prop
  | .part level, f, used, _ => Written level f used
  | .rest level left, f, used, _ =>
    ∀ before, Written level left before → Written level f (before ++ used)
  | .call name, f, used, others =>
    name.kind = .ident → startsCall (used ++ others) = true → Written .operand f (name :: used)

theorem Level.operator?_colon (level : Level) (h : t.kind = .colon) : level.operator? t = none := by
  cases level <;> simp [Level.operator?, sumOperator?, productOperator?, h]

/-- Behind a chain the call ends, or its body is read between parentheses. -/
theorem readBody_outcome {name : Token} {chain : List Argument × Nat} {used : List Token}
    (made : ChainMade name.span.stop chain used us)
    (body : ∀ t vs, us = t :: vs →
      Outcome stop (Reader.part .sum).Makes vs ((Reader.part .sum).run stop vs)) :
    Outcome stop (fun f used' => (Reader.call name).Makes f (used ++ used')) us
      (readBody stop name chain.1 chain.2 us) := by
  obtain ⟨written, first, bare⟩ := made
  cases us with
  | nil =>
    refine .done fun kind starts => .chain kind (by simpa using written) ?_
    rintro e
    simp [e, startsCall] at starts
  | cons t us =>
    rw [readBody]
    split
    · next opens =>
      have inner := body t us rfl
      generalize (Reader.part .sum).run stop us = result at inner ⊢
      rcases result with fault | ⟨f, vs⟩
      · exact Fault.Raised.mono inner (suffix_cons t us)
      obtain ⟨used', rfl, written', fit⟩ := inner
      cases vs with
      | nil => exact Fault.raised_head rfl trivial
      | cons close vs =>
        dsimp only [andThen]
        split
        · next closes =>
          have noBare : chain.1 = [] → used = [] := fun hxs =>
            (bare hxs).resolve_right (by simp [endsChain, opens])
          refine ⟨t :: (used' ++ [close]), by simp, fun kind _ =>
            .applied kind written noBare opens written' closes, fun behind => ?_⟩
          exact (fit (behind.cons_of_ne closes (by decide))).cons_of_ne opens (by decide)
        · exact Fault.raised_head rfl trivial
    · next opens =>
      refine .done fun kind starts => .chain kind (by simpa using written) ?_
      intro e
      rw [append_nil] at e
      have hc := first e t rfl
      simp [e, startsCall, hc, opens] at starts

theorem run_outcome (stop : Nat) (reader : Reader) (ts : List Token) :
    Outcome stop reader.Makes ts (reader.run stop ts) := by
  induction reader, ts using Reader.induct stop with
  | part level ts upper first more =>
    rw [run_part upper]
    exact first.andThen fun left used us _ written h =>
      (more left us h).imp fun f used' _ rest => rest used (.ofBelow upper written)
  | restNil level left =>
    rw [run_rest_nil]
    exact .done fun before h => by rwa [append_nil]
  | restCons level left t ts second more =>
    rw [run_rest_cons]
    cases operator : level.operator? t with
    | none => exact .done fun before h => by rwa [append_nil]
    | some op =>
      have both : Outcome stop (fun f used _ => ∀ before, Written level left before →
          Written level f (before ++ t :: used)) ts _ :=
        second.andThen fun right used us _ written h =>
          (more op right us h).imp fun f used' _ rest before first => by
            simpa using rest _ (.joined first operator written)
      refine both.cons fun f used rest _ h =>
        ⟨h, fun fit behind => (fit behind).cons fun colon => ?_⟩
      rw [level.operator?_colon colon] at operator
      cases operator
  | operandNil =>
    rw [run_operand_nil]
    exact ⟨Or.inl rfl, trivial⟩
  | operandCons t ts operand call =>
    rw [run_operand_cons]
    cases kind : t.kind with
    | minus =>
      have negated : Outcome stop (fun f used _ => Written .operand f (t :: used)) ts _ :=
        operand.map fun f used _ written => .negation kind written
      exact negated.cons fun f used rest _ h =>
        ⟨h, fun fit behind => (fit behind).cons_of_ne kind (by decide)⟩
    | number value =>
      exact ⟨[t], rfl, .literal kind, fun fit => fit.cons_of_ne kind (by simp)⟩
    | ident =>
      dsimp only
      split
      · next starts =>
        exact call.cons fun f used rest e h => ⟨h kind (e ▸ starts), fun fit behind =>
          (fit behind).cons_of_ne kind (by decide)⟩
      · exact ⟨[t], rfl, .name kind, fun fit => fit.cons_of_ne kind (by decide)⟩
    | plus => exact Fault.raised_head rfl trivial
    | leftParen => exact Fault.raised_head rfl trivial
    | _ => exact Fault.raised_head rfl ⟨t, mem_cons_self, rfl⟩
  | call name ts body =>
    rw [run_call]
    refine (readChain_outcome name.span.stop ts).andThen fun chain used us _ made h => ?_
    refine readBody_outcome made fun t vs e => body chain t vs ?_
    rw [h, e]

/-- All tokens are read into a formula, or there is a fault at one of them. -/
theorem ofTokens_outcome (stop : Nat) (ts : List Token) :
    (∀ f, ofTokens stop ts = .ok f → Written .sum f ts ∧ ColonsFit ts) ∧
      ∀ fault, ofTokens stop ts = .error fault → fault = .empty ∨ fault.Raised stop ts := by
  have outcome := run_outcome stop (.part .sum) ts
  rw [ofTokens_eq]
  split
  · exact ⟨nofun, fun fault h => Or.inl (Except.error.inj h).symm⟩
  generalize (Reader.part .sum).run stop ts = result at outcome ⊢
  rcases result with fault | ⟨f, - | ⟨t, us⟩⟩
  · exact ⟨nofun, fun fault h => Or.inr (Except.error.inj h ▸ outcome)⟩
  · obtain ⟨used, rfl, written, fit⟩ := outcome
    rw [append_nil] at fit ⊢
    refine ⟨fun g h => ?_, nofun⟩
    rw [← Except.ok.inj h]
    exact ⟨written, fit colonsFit_nil⟩
  · obtain ⟨used, rfl, -, -⟩ := outcome
    refine ⟨nofun, fun fault h => Or.inr ?_⟩
    rw [← Except.error.inj h]
    exact ⟨Or.inr ⟨t, by simp, rfl⟩, t, by simp, rfl⟩

/-- A formula is written in all tokens of its text. -/
theorem parse_written {text : String} {f : Formula} (h : parse text = .ok f) :
    ∃ ts, scan text = .ok ts ∧ Written .sum f ts ∧ ColonsFit ts := by
  unfold parse at h
  split at h
  · cases h
  · next ts scanned => exact ⟨ts, scanned, (ofTokens_outcome text.length ts).1 f h⟩

end ModCheck.Formula
