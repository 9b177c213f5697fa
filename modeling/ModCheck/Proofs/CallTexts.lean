import ModCheck.Proofs.FormulaReading

/-
  Calls as they are written, `name:a:b`. No token goes on over a colon, so the tokens of such a text
  are those of its parts with colons between them (`Scans.append_colon`), and it is read as a
  call of the name with these arguments (`parse_callText`).
-/

namespace ModCheck.Formula

open List
open Text (isBlank)

/-! ## Texts one behind the other -/

/-- The tokens of two texts with a colon between them. -/
theorem Scans.append_colon {pos stop : Nat} {cs ds : List Char} {ts us : List Token}
    (h : Scans pos cs ts) (hstop : stop = pos + cs.length) (h' : Scans (stop + 1) ds us) :
    Scans pos (cs ++ ':' :: ds) (ts ++ signToken .colon stop :: us) := by
  induction h with
  | @done pos =>
    obtain rfl : stop = pos := hstop
    have found : leadingToken 0 ':' ds = .ok (.colon, [':']) := rfl
    have colon : LongestToken .colon [':'] ([':'] ++ ds) := longestToken_of_leadingToken found
    exact .token colon h'
  | blank hb more ih =>
    exact .blank hb (ih (by rw [hstop, length_cons]; omega))
  | token longest more ih =>
    have longer := longest.append (c := ':') (by decide) (.inr (by decide)) ds
    rw [append_assoc] at longer ⊢
    exact .token longer (ih (by rw [hstop, length_append, Nat.add_assoc]))

/-- A token `n` characters further on. -/
def Token.shift (t : Token) (n : Nat) : Token :=
  ⟨t.kind, t.text, t.span.shift n⟩

theorem Scans.shift {pos : Nat} {cs : List Char} {ts : List Token} (h : Scans pos cs ts) (n : Nat) :
    Scans (pos + n) cs (ts.map (·.shift n)) := by
  induction h with
  | done => exact .done
  | blank hb more ih => exact .blank hb (by rwa [Nat.add_right_comm] at ih)
  | token longest more ih =>
    rw [Nat.add_right_comm] at ih
    have token := Scans.token longest ih
    rwa [Nat.add_right_comm] at token

/-! ## Atoms -/

/-- A text that is an argument of a chain: a number, with a minus sign or without, or a name. The
text without blanks and whether it is a number. -/
inductive IsAtom (text : String) : String → Bool → Prop
  | number {t : Token} {value : Binary64} (kind : t.kind = .number value)
      (scanned : scan text = .ok [t]) : IsAtom text t.text true
  | negative {m t : Token} {value : Binary64} (minus : m.kind = .minus)
      (kind : t.kind = .number value) (scanned : scan text = .ok [m, t]) :
      IsAtom text ("-" ++ t.text) true
  | name {t : Token} (kind : t.kind = .ident) (scanned : scan text = .ok [t]) :
      IsAtom text t.text false

/-- An argument of a chain as it is written, and without the blanks in it. -/
structure Atom where
  text : String
  bare : String
  isNumber : Bool
  isAtom : IsAtom text bare isNumber

/-- A name as it stands in formulas. -/
def IsIdent (name : String) : Prop :=
  ∃ t : Token, t.kind = .ident ∧ t.text = name ∧ scan name = .ok [t]

/-- The call of a name with a chain of arguments, `name:a:b`. -/
def callText (name : String) (atoms : List Atom) : String :=
  ":".intercalate (name :: atoms.map (·.text))

/-- What an argument says and whether it is a number. -/
def argumentWord (x : Argument) : String × Bool :=
  (x.text, x.isNumber)

def Atom.word (a : Atom) : String × Bool :=
  (a.bare, a.isNumber)

theorem Atom.exists_argument (a : Atom) (d : Token) (hd : d.kind = .colon) (pos : Nat) :
    ∃ x ts, Scans pos a.text.toList ts ∧ ArgumentWritten x (d :: ts) ∧
      argumentWord x = a.word ∧ x.delimiter = ':' := by
  obtain ⟨text, bare, isNumber, isAtom⟩ := a
  have sign : delimiter? d = some ':' := by simp [delimiter?, hd]
  have shifted {ts : List Token} (scanned : scan text = .ok ts) :
      Scans pos text.toList (ts.map (·.shift pos)) := by
    have := (scans_iff.1 scanned).shift pos
    rwa [Nat.zero_add] at this
  cases isAtom with
  | @number t value kind scanned =>
    have written : ArgumentWritten _ [d, t.shift pos] := .number sign kind
    exact ⟨_, _, shifted scanned, written, rfl, rfl⟩
  | @negative m t value minus kind scanned =>
    have written : ArgumentWritten _ [d, m.shift pos, t.shift pos] := .negative sign minus kind
    exact ⟨_, _, shifted scanned, written, rfl, rfl⟩
  | @name t kind scanned =>
    have written : ArgumentWritten _ [d, t.shift pos] := .name sign kind
    exact ⟨_, _, shifted scanned, written, rfl, rfl⟩

theorem toList_callText (name : String) (a : Atom) (atoms : List Atom) :
    (callText name (a :: atoms)).toList = name.toList ++ ':' :: (callText a.text atoms).toList := by
  unfold callText
  simp

theorem exists_arguments (a : Atom) (atoms : List Atom) (d : Token) (hd : d.kind = .colon)
    (pos : Nat) :
    ∃ xs ts, Scans pos (callText a.text atoms).toList ts ∧ ArgumentsWritten xs (d :: ts) ∧
      xs.map argumentWord = (a :: atoms).map Atom.word ∧
      ∀ x ∈ xs, x.delimiter = ':' := by
  induction atoms generalizing a d pos with
  | nil =>
    obtain ⟨x, ts, scanned, written, hword, hx⟩ := a.exists_argument d hd pos
    refine ⟨[x], ts, by simpa [callText] using scanned, ?_, by simp [hword], by simpa using hx⟩
    simpa using ArgumentsWritten.cons written .nil
  | cons b atoms ih =>
    obtain ⟨x, ts, scanned, written, hword, hx⟩ := a.exists_argument d hd pos
    obtain ⟨xs, us, more, writtens, hwords, hxs⟩ :=
      ih b (signToken .colon (pos + a.text.toList.length)) rfl (pos + a.text.toList.length + 1)
    refine ⟨x :: xs, _, ?_, .cons written writtens, ?_, forall_mem_cons.2 ⟨hx, hxs⟩⟩
    · rw [toList_callText]
      exact scanned.append_colon rfl more
    · rw [map_cons, hword, hwords]
      rfl

/-- A name with arguments behind a colon is read as a call with these arguments. -/
theorem parse_chain {text : String} {t d : Token} {ts : List Token} {xs : List Argument}
    (scanned : scan text = .ok (t :: d :: ts)) (kind : t.kind = .ident) (colon : d.kind = .colon)
    (written : ArgumentsWritten xs (d :: ts)) :
    ∃ call : Call, parse text = .ok (.chain call) ∧ call.name = t.text ∧ call.arguments = xs := by
  obtain ⟨ys, y, rfl⟩ : ∃ ys y, xs = ys ++ [y] := by
    refine (eq_nil_or_concat' xs).resolve_left ?_
    rintro rfl
    cases written
  have chain := Written.chain kind (.full colon written) (cons_ne_nil _ _)
  have whole : Written .sum _ _ := .ofBelow (by decide) (.ofBelow (by decide) chain)
  have greedy := Greedy.mk whole (forall_mem_singleton.2 trivial)
  exact ⟨_, greedy.parse_eq scanned, rfl, rfl⟩

/-- The tokens of a call's text: the name, and the arguments, each behind a colon. -/
theorem scan_callText {name : String} (ident : IsIdent name) (a : Atom) (atoms : List Atom) :
    ∃ t d ts xs, scan (callText name (a :: atoms)) = .ok (t :: d :: ts) ∧ t.kind = .ident ∧
      t.text = name ∧ d.kind = .colon ∧ ArgumentsWritten xs (d :: ts) ∧
      xs.map argumentWord = (a :: atoms).map Atom.word ∧ ∀ x ∈ xs, x.delimiter = ':' := by
  obtain ⟨t, kind, rfl, scanned⟩ := ident
  obtain ⟨xs, ts, more, written, hwords, hxs⟩ := exists_arguments a atoms
    (signToken .colon t.text.toList.length) rfl (t.text.toList.length + 1)
  refine ⟨t, _, ts, xs, ?_, kind, rfl, rfl, written, hwords, hxs⟩
  unfold scan
  rw [toList_callText]
  exact scans_iff.2 ((scans_iff.1 scanned).append_colon (Nat.zero_add _).symm more)

/-- A name with a chain of atoms is read as a call with these arguments. -/
theorem parse_callText {name : String} (ident : IsIdent name) {atoms : List Atom}
    (hne : atoms ≠ []) :
    ∃ call : Call, parse (callText name atoms) = .ok (.chain call) ∧ call.name = name ∧
      call.arguments.map argumentWord = atoms.map Atom.word ∧
      ∀ x ∈ call.arguments, x.delimiter = ':' := by
  obtain ⟨a, atoms, rfl⟩ := exists_cons_of_ne_nil hne
  obtain ⟨t, d, ts, xs, scanned, kind, rfl, colon, written, words, colons⟩ :=
    scan_callText ident a atoms
  obtain ⟨call, parsed, hname, rfl⟩ := parse_chain scanned kind colon written
  exact ⟨call, parsed, hname, words, colons⟩

end ModCheck.Formula
