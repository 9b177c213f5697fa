import ModCheck.Proofs.FormulaReplacements

/-
  The tree of a formula against its text. Read in order, a tree gives back every token of the text
  with its characters and its place (`Formula.tokens`): the tree knows the names, the numbers and
  most signs, and only the text of a number and the blanks before an operator are looked up. Sums
  and products are joined from the left, and every part of the tree runs from the start of its
  first token to the end of its last, so that parts lie inside each other and in order
  (`parse_exact`).
-/

namespace ModCheck.Formula

open List
open Text (isBlank)

variable {a b : Nat} {f g left right : Formula} {kind : TokenKind} {level : Level}
  {op : BinaryOperator} {r : CharRange} {text : List Char} {ts us : List Token} {x : Argument}
  {xs : List Argument}

/-! ## Reading a tree -/

/-- How a sign is written. Numbers and names have no text of their own. -/
def TokenKind.sign : TokenKind → String
  | .colon => ":"
  | .comma => ","
  | .plus => "+"
  | .minus => "-"
  | .star => "*"
  | .slash => "/"
  | .leftParen => "("
  | .rightParen => ")"
  | .number _ => ""
  | .ident => ""

/-- A sign at a character. -/
def signToken (kind : TokenKind) (pos : Nat) : Token :=
  ⟨kind, kind.sign, ⟨pos, pos + 1⟩⟩

def operatorKind : BinaryOperator → TokenKind
  | .add => .plus
  | .subtract => .minus
  | .multiply => .star
  | .divide => .slash

/-- The first character from `pos` on that is not blank, by number. -/
def skipBlanks (text : List Char) (pos : Nat) : Nat :=
  pos + ((text.drop pos).takeWhile isBlank).length

def numberKind (digits : List Char) : TokenKind :=
  .number (((Decimal.parse? digits).map .ofDecimal).getD .zero)

/-- The tokens of an argument, without the delimiter. A minus sign belongs to the number. -/
def atomTokens (x : Argument) : List Token :=
  if x.isNumber then
    match x.text.toList with
    | '-' :: digits =>
      [signToken .minus x.span.start,
        ⟨numberKind digits, String.ofList digits, ⟨x.span.stop - digits.length, x.span.stop⟩⟩]
    | digits => [⟨numberKind digits, x.text, x.span⟩]
  else [⟨.ident, x.text, x.span⟩]

def argumentTokens (x : Argument) : List Token :=
  signToken ((signKind? x.delimiter).getD .colon) x.delimiterOffset :: atomTokens x

def nameToken (call : Call) : Token :=
  ⟨.ident, call.name, call.nameSpan⟩

/-- The tokens of a formula that stands in a text. -/
def tokens (text : List Char) : Formula → List Token
  | .literal value span => [⟨.number value, String.ofList (textAt text span), span⟩]
  | .variable name span => [⟨.ident, name, span⟩]
  | .negation operand span => signToken .minus span.start :: operand.tokens text
  | .binary op left right _ =>
    left.tokens text ++
      signToken (operatorKind op) (skipBlanks text left.span.stop) :: right.tokens text
  | .chain call =>
    nameToken call ::
      (if call.arguments.isEmpty then [signToken .colon (call.span.stop - 1)]
        else call.arguments.flatMap argumentTokens)
  | .applied call body bodySpan =>
    nameToken call ::
      (call.arguments.flatMap argumentTokens ++
        signToken .leftParen bodySpan.start ::
          (body.tokens text ++ [signToken .rightParen (bodySpan.stop - 1)]))

/-- A formula and all formulas inside it. -/
def nodes : Formula → List Formula
  | .literal value span => [.literal value span]
  | .variable name span => [.variable name span]
  | .negation operand span => .negation operand span :: operand.nodes
  | .binary op left right span => .binary op left right span :: (left.nodes ++ right.nodes)
  | .chain call => [.chain call]
  | .applied call body bodySpan => .applied call body bodySpan :: body.nodes

/-- The name and the arguments of a call: where each stands, and its tokens. -/
def callWords (call : Call) : List (CharRange × List Token) :=
  (call.nameSpan, [nameToken call]) :: call.arguments.map fun x => (x.span, atomTokens x)

def words : Formula → List (CharRange × List Token)
  | .chain call => callWords call
  | .applied call _ _ => callWords call
  | _ => []

/-! ## What is said of a part -/

def isBinary : Formula → Bool
  | .binary _ _ _ _ => true
  | _ => false

def isSum : Formula → Bool
  | .binary .add _ _ _ => true
  | .binary .subtract _ _ _ => true
  | _ => false

/-- Which formulas may stand right below which: nothing groups but the signs' precedence, and
operators of one precedence are joined from the left. -/
def WellShaped : Formula → Prop
  | .negation operand _ => operand.isBinary = false
  | .binary .add _ right _ => right.isSum = false
  | .binary .subtract _ right _ => right.isSum = false
  | .binary .multiply left right _ => left.isSum = false ∧ right.isBinary = false
  | .binary .divide left right _ => left.isSum = false ∧ right.isBinary = false
  | _ => True

/-- A range from the start of the first of some tokens to the end of the last. -/
def Covers (range : CharRange) (ts : List Token) : Prop :=
  ∃ first last, ts.head? = some first ∧ ts.getLast? = some last ∧
    range = first.span.through last.span

/-- Ranges that follow each other on the characters `a` up to `b`, none of them empty. -/
def RangesIn : Nat → List CharRange → Nat → Prop
  | a, [], b => a ≤ b
  | a, r :: rs, b => a ≤ r.start ∧ r.start < r.stop ∧ RangesIn r.stop rs b

/-- The parts of a formula lie inside it, one behind the other; a body lies between its
parentheses. -/
def Nested : Formula → Prop
  | .negation operand span => RangesIn span.start [operand.span] span.stop
  | .binary _ left right span => RangesIn span.start [left.span, right.span] span.stop
  | .chain call =>
    RangesIn call.span.start (call.nameSpan :: call.arguments.map (·.span)) call.span.stop
  | .applied call body bodySpan =>
    RangesIn call.span.start (call.nameSpan :: (call.arguments.map (·.span) ++ [bodySpan]))
        call.span.stop ∧
      RangesIn (bodySpan.start + 1) [body.span] (bodySpan.stop - 1)
  | _ => True

/-- A part of a formula that stands on the tokens it is read from; `all` are those of the whole. -/
structure StandsIn (text : List Char) (all : List Token) (f : Formula) : Prop where
  together : f.tokens text <:+: all
  covers : Covers f.span (f.tokens text)
  words : ∀ w ∈ f.words, w.2 <:+: f.tokens text ∧ Covers w.1 w.2
  nested : f.Nested
  shape : f.WellShaped

/-! ## Tokens and their characters -/

/-- The texts that each kind of token can have. -/
def Spelled : TokenKind → List Char → Prop
  | .number value, cs => numberKind cs = .number value ∧ cs.head? ≠ some '-'
  | .ident, _ => True
  | kind, cs => cs = kind.sign.toList

/-- A token that stands on its own characters of a text. -/
structure Token.Fits (text : List Char) (t : Token) : Prop where
  here : textAt text t.span = t.text.toList
  size : t.span.stop = t.span.start + t.text.toList.length
  spelled : Spelled t.kind t.text.toList

/-- Tokens of a text from character `a` on, with nothing but blanks between them. -/
def Tiled (text : List Char) : Nat → List Token → Prop
  | _, [] => True
  | a, t :: ts => t.span.start = skipBlanks text a ∧ t.Fits text ∧ Tiled text t.span.stop ts

theorem spelled_sign {c : Char} (h : signKind? c = some kind) : Spelled kind [c] := by
  unfold signKind? at h
  split at h <;> cases h <;> rfl

theorem TokenText.spelled {chars : List Char} (h : TokenText kind chars) : Spelled kind chars := by
  cases h with
  | sign sign => exact spelled_sign sign
  | number value =>
    refine ⟨by rw [numberKind, value]; rfl, fun minus => ?_⟩
    obtain ⟨ds, rfl⟩ := head?_eq_some_iff.1 minus
    have numeral := Decimal.isSome_parse?_iff.1 (Option.isSome_of_eq_some value)
    exact absurd (startsNumber_of_isNumeral numeral (prefix_refl ds)) (by simp [startsNumber])
  | name start all => trivial

theorem Tiled.skip (e : skipBlanks text a = skipBlanks text b) (h : Tiled text a ts) :
    Tiled text b ts := by
  cases ts with
  | nil => trivial
  | cons t ts => exact ⟨h.1.trans e, h.2⟩

theorem Scans.tiled {pos : Nat} {cs : List Char} (h : Scans pos cs ts) (hcs : text.drop pos = cs) :
    Tiled text pos ts := by
  induction h with
  | done => trivial
  | @blank pos c cs ts hb more ih =>
    have hnext : text.drop (pos + 1) = cs := by rw [← drop_drop, hcs]; rfl
    refine (ih hnext).skip ?_
    unfold skipBlanks
    rw [hcs, hnext, takeWhile_cons_of_pos hb, length_cons]
    omega
  | @token pos kind chars rest ts longest more ih =>
    obtain ⟨c, cs, rfl⟩ := exists_cons_of_ne_nil longest.token.ne_nil
    have visible := (longest.token.isTokenChar c mem_cons_self).visible
    refine ⟨?_, ⟨?_, ?_, ?_⟩, ih (by rw [← drop_drop, hcs, drop_left])⟩
    · unfold skipBlanks
      rw [hcs, cons_append, takeWhile_cons_of_neg (by simp [visible])]
      rfl
    · rw [String.toList_ofList]
      exact textAt_of_drop hcs longest.leads
    · rw [String.toList_ofList]
    · rw [String.toList_ofList]
      exact longest.token.spelled

theorem tiled_scan {text : String} (h : scan text = .ok ts) : Tiled text.toList 0 ts :=
  (scans_iff.1 h).tiled rfl

theorem Tiled.fits (h : Tiled text a ts) : ∀ t ∈ ts, t.Fits text := by
  induction ts generalizing a with
  | nil => simp
  | cons t ts ih => exact forall_mem_cons.2 ⟨h.2.1, ih h.2.2⟩

theorem Tiled.of_append (h : Tiled text a (ts ++ us)) :
    Tiled text a ts ∧ Tiled text ((ts.getLast?.map (·.span.stop)).getD a) us := by
  induction ts generalizing a with
  | nil => exact ⟨trivial, h⟩
  | cons t ts ih =>
    obtain ⟨start, fits, rest⟩ := h
    obtain ⟨h₁, h₂⟩ := ih rest
    refine ⟨⟨start, fits, h₁⟩, ?_⟩
    rw [getLast?_cons]
    cases hl : ts.getLast? with
    | none => simpa [hl] using h₂
    | some u => simpa [hl] using h₂

theorem Token.Fits.eq_sign {t : Token} (h : t.Fits text) (hk : t.kind = kind)
    (hs : kind.sign ≠ "") : t = signToken kind t.span.start := by
  obtain ⟨tkind, ttext, start, stop⟩ := t
  have spelled := h.spelled
  have size := h.size
  dsimp only at hk spelled size ⊢
  subst hk
  have htext : ttext = tkind.sign := by
    cases tkind with
    | number value => exact absurd rfl hs
    | ident => exact absurd rfl hs
    | _ => exact String.toList_injective spelled
  have hone : tkind.sign.toList.length = 1 := by
    cases tkind with
    | number value => exact absurd rfl hs
    | ident => exact absurd rfl hs
    | _ => rfl
  rw [htext, hone] at size
  rw [htext, size]
  rfl

theorem Token.Fits.eq_number {t : Token} (h : t.Fits text) {value : Binary64}
    (hk : t.kind = .number value) :
    numberKind t.text.toList = t.kind ∧ t.text.toList.head? ≠ some '-' := by
  have spelled := h.spelled
  rw [hk] at spelled ⊢
  exact spelled

/-! ## From the first token to the last -/

theorem covers_self (t : Token) : Covers t.span [t] :=
  ⟨t, t, rfl, rfl, rfl⟩

theorem Covers.append {q : CharRange} (h : Covers r ts) (h' : Covers q us) :
    Covers (r.through q) (ts ++ us) := by
  obtain ⟨first, _, hfirst, -, rfl⟩ := h
  obtain ⟨_, last, -, hlast, rfl⟩ := h'
  refine ⟨first, last, ?_, ?_, rfl⟩
  · rw [head?_append, hfirst, Option.some_or]
  · rw [getLast?_append, hlast, Option.some_or]

theorem Covers.cons (h : Covers r ts) (t : Token) : Covers (t.span.through r) (t :: ts) :=
  (covers_self t).append h

theorem ArgumentWritten.getLast? (h : ArgumentWritten x ts) :
    ∃ last, ts.getLast? = some last ∧ last.span.stop = x.span.stop := by
  cases h with
  | number sign kind => exact ⟨_, rfl, rfl⟩
  | name sign kind => exact ⟨_, rfl, rfl⟩
  | negative sign minus kind => exact ⟨_, rfl, rfl⟩

theorem ArgumentsWritten.getLast? (h : ArgumentsWritten xs ts) (hx : xs.getLast? = some x) :
    ∃ last, ts.getLast? = some last ∧ last.span.stop = x.span.stop := by
  induction h with
  | nil => simp at hx
  | @cons y ys ts us first rest ih =>
    cases ys with
    | nil =>
      cases rest
      obtain rfl := Option.some.inj hx
      rw [append_nil]
      exact first.getLast?
    | cons z zs =>
      obtain ⟨last, hlast, hstop⟩ := ih hx
      exact ⟨last, by rw [getLast?_append, hlast, Option.some_or], hstop⟩

theorem ChainWritten.getLast? {nameEnd chainEnd : Nat} (h : ChainWritten nameEnd xs chainEnd ts)
    (hne : ts ≠ []) : ∃ last, ts.getLast? = some last ∧ last.span.stop = chainEnd := by
  cases h with
  | absent => exact absurd rfl hne
  | bare colon => exact ⟨_, rfl, rfl⟩
  | full colon written => exact written.getLast? getLast?_concat

/-- A formula runs from the start of its first token to the end of its last. -/
theorem Written.covers (h : Written level f ts) : Covers f.span ts := by
  induction h with
  | literal kind => exact covers_self _
  | name kind => exact covers_self _
  | negation minus operand ih => exact ih.cons _
  | @chain name xs chainEnd ts kind chain called =>
    obtain ⟨last, hlast, rfl⟩ := chain.getLast? called
    refine ⟨name, last, rfl, ?_, rfl⟩
    rw [getLast?_cons, hlast]
    rfl
  | @applied name opening closing xs chainEnd body ts us kind chain noBare opens inner closes ih =>
    refine ⟨name, closing, rfl, ?_, rfl⟩
    rw [← cons_append, ← cons_append, ← append_assoc, getLast?_concat]
  | ofBelow upper part ih => exact ih
  | @joined _ left right _ _ sign _ first operator second ih₁ ih₂ =>
    have covers := ih₁.append (ih₂.cons sign)
    exact covers

/-! ## Tokens read back -/

theorem argumentTokens_eq (h : ArgumentWritten x ts) (fits : ∀ t ∈ ts, t.Fits text) :
    argumentTokens x = ts := by
  have delimiter : ∀ {d : Token} {c : Char}, delimiter? d = some c → d.Fits text →
      signToken ((signKind? c).getD .colon) d.span.start = d := by
    intro d c hd fit
    unfold delimiter? at hd
    split at hd
    · next hk =>
      obtain rfl := Option.some.inj hd
      exact (fit.eq_sign hk (by decide)).symm
    · next hk =>
      obtain rfl := Option.some.inj hd
      exact (fit.eq_sign hk (by decide)).symm
    · simp at hd
  cases h with
  | @number d t c value sign kind =>
    obtain ⟨hnumber, hhead⟩ := (fits t (by simp)).eq_number kind
    unfold argumentTokens
    rw [delimiter sign (fits d (by simp)), atomTokens, if_pos rfl]
    split
    · next digits e =>
      rw [e] at hhead
      exact absurd rfl hhead
    · rw [hnumber]
  | @name d t c sign kind =>
    unfold argumentTokens
    rw [delimiter sign (fits d (by simp)), atomTokens, ← kind]
    rfl
  | @negative d m t c value sign minus kind =>
    have fit := fits t (by simp)
    obtain ⟨hnumber, -⟩ := fit.eq_number kind
    have hstart : t.span.stop - t.text.toList.length = t.span.start := by
      have := fit.size
      omega
    have hm := (fits m (by simp)).eq_sign minus (by decide)
    have htext : ("-" ++ t.text).toList = '-' :: t.text.toList := by simp
    unfold argumentTokens
    rw [delimiter sign (fits d (by simp)), atomTokens, if_pos rfl]
    simp only [htext, CharRange.through]
    rw [hnumber, hstart, String.ofList_toList, ← hm]

theorem flatMap_argumentTokens (h : ArgumentsWritten xs ts) (fits : ∀ t ∈ ts, t.Fits text) :
    xs.flatMap argumentTokens = ts := by
  induction h with
  | nil => rfl
  | cons first rest ih =>
    rw [flatMap_cons, argumentTokens_eq first fun t ht => fits t (mem_append_left _ ht),
      ih fun t ht => fits t (mem_append_right _ ht)]

/-- Behind a part of the text, the next token starts at the first character that is not blank. -/
theorem Tiled.behind {range : CharRange} (h : Tiled text a (ts ++ us)) (covers : Covers range ts) :
    Tiled text a ts ∧ Tiled text range.stop us := by
  obtain ⟨first, last, -, hlast, rfl⟩ := covers
  have := h.of_append
  rwa [hlast] at this

/-- The level of what an operator joins. -/
def operatorLevel : BinaryOperator → Level
  | .add => .sum
  | .subtract => .sum
  | .multiply => .product
  | .divide => .product

theorem Level.operator?_eq_some {sign : Token} (h : level.operator? sign = some op) :
    sign.kind = operatorKind op ∧ operatorLevel op = level := by
  obtain ⟨kind, text, span⟩ := sign
  cases level <;> cases kind <;> cases h <;> exact ⟨rfl, rfl⟩

/-- The tokens behind a name, when the chain is not a colon alone. -/
theorem ChainWritten.flatMap_argumentTokens {nameEnd chainEnd : Nat}
    (h : ChainWritten nameEnd xs chainEnd ts) (fits : ∀ t ∈ ts, t.Fits text)
    (noBare : xs = [] → ts = []) : xs.flatMap argumentTokens = ts := by
  cases h with
  | absent => rfl
  | bare colon => exact (noBare rfl).symm
  | full colon written => exact Formula.flatMap_argumentTokens written fits

theorem nameToken_eq {name : Token} (kind : name.kind = .ident) {span : CharRange} :
    nameToken ⟨name.text, name.span, xs, span⟩ = name := by
  rw [nameToken, ← kind]

/-- A tree read in order gives back the tokens it was read from. -/
theorem Written.tokens_eq (h : Written level f ts) (tiled : Tiled text a ts) :
    f.tokens text = ts := by
  induction h generalizing a with
  | @literal t value kind =>
    unfold tokens
    rw [tiled.2.1.here, String.ofList_toList, ← kind]
  | @name t kind =>
    unfold tokens
    rw [← kind]
  | @negation m f ts minus operand ih =>
    obtain ⟨start, fits, rest⟩ := tiled
    unfold tokens
    rw [ih rest]
    exact congrArg (· :: ts) (fits.eq_sign minus (by decide)).symm
  | @chain name xs chainEnd ts kind chain called =>
    obtain ⟨start, fits, rest⟩ := tiled
    unfold tokens
    rw [nameToken_eq kind]
    congr 1
    cases chain with
    | absent => exact absurd rfl called
    | @bare t colon =>
      have fit := rest.2.1
      have e := fit.eq_sign colon (by decide)
      rw [e]
      rfl
    | full colon written =>
      rw [if_neg (by simp)]
      exact flatMap_argumentTokens written rest.fits
  | @applied name opening closing xs chainEnd body ts us kind chain noBare opens inner closes ih =>
    obtain ⟨start, fits, rest⟩ := tiled
    obtain ⟨hchain, hopen, fit, rest⟩ := rest.of_append
    obtain ⟨hbody, hclose, fit', -⟩ := rest.behind inner.covers
    have hstop : closing.span.stop - 1 = closing.span.start := by
      rw [fit'.eq_sign closes (by decide)]
      rfl
    unfold tokens
    rw [nameToken_eq kind, ih hbody, chain.flatMap_argumentTokens hchain.fits noBare]
    rw [hstop, ← fit.eq_sign opens (by decide), ← fit'.eq_sign closes (by decide)]
  | ofBelow upper part ih => exact ih tiled
  | @joined level left right ts us sign op first operator second ih₁ ih₂ =>
    obtain ⟨before, start, fits, behind⟩ := tiled.behind first.covers
    have hs : (operatorKind op).sign ≠ "" := by cases op <;> decide
    unfold join tokens
    rw [ih₁ before, ih₂ behind, ← start, ← fits.eq_sign (Level.operator?_eq_some operator).1 hs]

/-! ## Parts of a formula -/

/-- A formula that is written in tokens that stand together among `ts`. -/
def PartOf (ts : List Token) (g : Formula) : Prop :=
  ∃ level us, Written level g us ∧ us <:+: ts

theorem Written.partOf (h : Written level f ts) : PartOf ts f :=
  ⟨level, ts, h, infix_refl ts⟩

theorem PartOf.mono (h : PartOf us g) (hus : us <:+: ts) : PartOf ts g := by
  obtain ⟨level, vs, written, hvs⟩ := h
  exact ⟨level, vs, written, hvs.trans hus⟩

theorem PartOf.cons (h : PartOf ts g) (t : Token) : PartOf (t :: ts) g :=
  h.mono (suffix_cons t ts).isInfix

/-- Every formula inside a formula is itself written, in tokens that stand together. -/
theorem Written.nodes (h : Written level f ts) (hg : g ∈ f.nodes) : PartOf ts g := by
  induction h with
  | literal kind => exact mem_singleton.1 hg ▸ (Written.literal kind).partOf
  | name kind => exact mem_singleton.1 hg ▸ (Written.name kind).partOf
  | negation minus operand ih =>
    rcases mem_cons.1 hg with rfl | hg
    · exact (Written.negation minus operand).partOf
    · exact (ih hg).cons _
  | chain kind chain called =>
    exact mem_singleton.1 hg ▸ (Written.chain kind chain called).partOf
  | @applied name opening closing xs chainEnd body ts us kind chain noBare opens inner closes ih =>
    rcases mem_cons.1 hg with rfl | hg
    · exact (Written.applied kind chain noBare opens inner closes).partOf
    · have inBody := (ih hg).mono (prefix_append us [closing]).isInfix
      exact ((inBody.cons opening).mono (suffix_append ts _).isInfix).cons name
  | ofBelow upper part ih => exact ih hg
  | joined first operator second ih₁ ih₂ =>
    rcases mem_cons.1 hg with rfl | hg
    · exact (Written.joined first operator second).partOf
    · rcases mem_append.1 hg with hg | hg
      · exact (ih₁ hg).mono (prefix_append _ _).isInfix
      · exact ((ih₂ hg).cons _).mono (suffix_append _ _).isInfix

/-! ## Shape -/

theorem Written.isBinary_eq_false (h : Written .operand f ts) : f.isBinary = false := by
  cases h with
  | ofBelow upper part => exact absurd rfl upper
  | joined first operator second => cases operator
  | _ => rfl

theorem Written.isSum_eq_false (h : Written .product f ts) : f.isSum = false := by
  cases h with
  | ofBelow upper part =>
    have := part.isBinary_eq_false
    cases f with
    | binary op left right span => cases this
    | _ => rfl
  | @joined _ left right _ _ _ op first operator second =>
    have := (Level.operator?_eq_some operator).2
    cases op with
    | add => cases this
    | subtract => cases this
    | _ => rfl

theorem Written.wellShaped (h : Written level f ts) : f.WellShaped := by
  induction h with
  | literal kind => trivial
  | name kind => trivial
  | negation minus operand ih => exact operand.isBinary_eq_false
  | chain kind chain called => trivial
  | applied kind chain noBare opens inner closes ih => trivial
  | ofBelow upper part ih => exact ih
  | @joined level left right _ _ _ op first operator second ih₁ ih₂ =>
    obtain rfl := (Level.operator?_eq_some operator).2
    cases op with
    | add => exact second.isSum_eq_false
    | subtract => exact second.isSum_eq_false
    | _ => exact ⟨first.isSum_eq_false, second.isBinary_eq_false⟩

/-! ## Nesting -/

theorem Spaced.to_last (h : Spaced a ts b) {last : Token} (hlast : ts.getLast? = some last) :
    Spaced a ts last.span.stop ∧ last.span.stop ≤ b := by
  induction ts generalizing a with
  | nil => simp at hlast
  | cons t ts ih =>
    obtain ⟨h₁, h₂, rest⟩ := h
    cases ts with
    | nil =>
      obtain rfl := Option.some.inj hlast
      exact ⟨⟨h₁, h₂, Nat.le_refl _⟩, rest⟩
    | cons u us =>
      obtain ⟨spaced, hle⟩ := ih rest hlast
      exact ⟨⟨h₁, h₂, spaced⟩, hle⟩

/-- Tokens that a range covers are spaced out over it. -/
theorem Covers.spaced {range : CharRange} {ts : List Token} (h : Covers range ts) {a b : Nat}
    (spaced : Spaced a ts b) : Spaced range.start ts range.stop := by
  obtain ⟨first, last, hfirst, hlast, rfl⟩ := h
  obtain ⟨tight, -⟩ := spaced.to_last hlast
  cases ts with
  | nil => simp at hfirst
  | cons t ts =>
    obtain rfl := Option.some.inj hfirst
    exact ⟨Nat.le_refl _, tight.2⟩

theorem Covers.bounds {range : CharRange} (h : Covers range ts) (spaced : Spaced a ts b) :
    a ≤ range.start ∧ range.start < range.stop ∧ range.stop ≤ b := by
  have tight := h.spaced spaced
  obtain ⟨first, last, hfirst, hlast, rfl⟩ := h
  obtain ⟨-, hle⟩ := spaced.to_last hlast
  cases ts with
  | nil => simp at hfirst
  | cons t ts =>
    obtain rfl := Option.some.inj hfirst
    have hlt : t.span.start < last.span.stop := Nat.lt_of_lt_of_le tight.2.1 tight.2.2.le
    exact ⟨spaced.1, hlt, hle⟩

theorem Spaced.of_infix (h : Spaced a ts b) (part : us <:+: ts) : ∃ m n, Spaced m us n := by
  obtain ⟨before, behind, rfl⟩ := part
  obtain ⟨n, h, -⟩ := spaced_append.1 h
  obtain ⟨m, -, h⟩ := spaced_append.1 h
  exact ⟨m, n, h⟩

theorem Tiled.of_infix (h : Tiled text a ts) (part : us <:+: ts) : ∃ m, Tiled text m us := by
  obtain ⟨before, behind, rfl⟩ := part
  exact ⟨_, h.of_append.1.of_append.2⟩

theorem rangesIn_arguments (h : ArgumentsIn a xs b) : RangesIn a (xs.map (·.span)) b := by
  induction xs generalizing a with
  | nil => exact h
  | cons x xs ih =>
    obtain ⟨h₁, h₂, h₃, rest⟩ := h
    exact ⟨Nat.le_trans h₁ (Nat.le_of_lt h₂), h₃, ih rest⟩

theorem RangesIn.concat {m : Nat} {rs : List CharRange} (h : RangesIn a rs m) (hm : m ≤ r.start)
    (hr : r.start < r.stop) (hb : r.stop ≤ b) : RangesIn a (rs ++ [r]) b := by
  induction rs generalizing a with
  | nil => exact ⟨Nat.le_trans h hm, hr, hb⟩
  | cons q rs ih => exact ⟨h.1, h.2.1, ih h.2.2⟩

theorem Written.nested (h : Written level f ts) (spaced : Spaced a ts b) : f.Nested := by
  have covers := h.covers
  induction h generalizing a b with
  | literal kind => trivial
  | name kind => trivial
  | negation minus operand ih =>
    obtain ⟨h₁, h₂, rest⟩ := covers.spaced spaced
    obtain ⟨h₃, h₄, h₅⟩ := operand.covers.bounds rest
    exact ⟨Nat.le_trans (Nat.le_of_lt h₂) h₃, h₄, h₅⟩
  | chain kind chain called =>
    obtain ⟨h₁, h₂, rest⟩ := covers.spaced spaced
    exact ⟨h₁, h₂, rangesIn_arguments (chain.spaced rest)⟩
  | applied kind chain noBare opens inner closes ih =>
    obtain ⟨h₁, h₂, rest⟩ := covers.spaced spaced
    obtain ⟨m, hchain, h₃, h₄, rest⟩ := spaced_append.1 rest
    obtain ⟨n, hbody, h₅, h₆, h₇⟩ := spaced_append.1 rest
    obtain ⟨h₈, h₉, h₁₀⟩ := inner.covers.bounds hbody
    refine ⟨⟨h₁, h₂, ?_⟩, ?_, h₉, ?_⟩
    · refine (rangesIn_arguments (chain.spaced hchain)).concat h₃ ?_ (Nat.le_refl _)
      dsimp only
      omega
    · dsimp only
      omega
    · dsimp only [RangesIn]
      omega
  | ofBelow upper part ih => exact ih spaced covers
  | joined first operator second ih₁ ih₂ =>
    obtain ⟨m, hleft, h₁, h₂, hright⟩ := spaced_append.1 (covers.spaced spaced)
    obtain ⟨h₃, h₄, h₅⟩ := first.covers.bounds hleft
    obtain ⟨h₆, h₇, h₈⟩ := second.covers.bounds hright
    exact ⟨h₃, h₄, by omega, h₇, h₈⟩

/-! ## Names and arguments -/

theorem covers_atomTokens (x : Argument) : Covers x.span (atomTokens x) := by
  unfold atomTokens
  split
  · split
    · exact ⟨_, _, rfl, rfl, rfl⟩
    · exact covers_self _
  · exact covers_self _

theorem atomTokens_infix (hx : x ∈ xs) : atomTokens x <:+: xs.flatMap argumentTokens := by
  obtain ⟨ys, zs, rfl⟩ := append_of_mem hx
  rw [flatMap_append]
  have inside : atomTokens x <:+: argumentTokens x ++ zs.flatMap argumentTokens :=
    (suffix_cons _ _).isInfix.trans (prefix_append _ _).isInfix
  exact inside.trans (suffix_append _ _).isInfix

/-- The names and the arguments of a call stand on tokens of it. -/
theorem callWords_stand {call : Call}
    (h : call.arguments ≠ [] → ts = call.arguments.flatMap argumentTokens) :
    ∀ w ∈ callWords call, w.2 <:+: nameToken call :: (ts ++ us) ∧ Covers w.1 w.2 := by
  intro w hw
  rcases mem_cons.1 hw with rfl | hw
  · exact ⟨(prefix_append [nameToken call] _).isInfix, covers_self (nameToken call)⟩
  · obtain ⟨x, hx, rfl⟩ := mem_map.1 hw
    refine ⟨?_, covers_atomTokens x⟩
    have inside := atomTokens_infix hx
    rw [← h (ne_nil_of_mem hx)] at inside
    exact (inside.trans (prefix_append ts us).isInfix).trans (suffix_cons _ _).isInfix

theorem words_stand (text : List Char) (f : Formula) :
    ∀ w ∈ f.words, w.2 <:+: f.tokens text ∧ Covers w.1 w.2 := by
  cases f with
  | chain call =>
    unfold words tokens
    rw [← append_nil (ite _ _ _)]
    refine callWords_stand fun hne => ?_
    rw [if_neg (by simpa using hne)]
  | applied call body bodySpan =>
    exact callWords_stand fun _ => rfl
  | _ => exact fun w hw => absurd hw not_mem_nil

/-! ## The tree of a text -/

/-- The tree of a formula is read off its tokens: in order it gives all of them back, and every
part stands on its own. -/
theorem parse_exact (text : String) (f : Formula) (h : parse text = .ok f) :
    scan text = .ok (f.tokens text.toList) ∧
      ∀ g ∈ f.nodes, StandsIn text.toList (f.tokens text.toList) g := by
  obtain ⟨ts, scanned, written, -⟩ := parse_written h
  have tiled := tiled_scan scanned
  have spaced := spaced_scan scanned
  rw [written.tokens_eq tiled]
  refine ⟨scanned, fun g hg => ?_⟩
  obtain ⟨level, us, part, here⟩ := written.nodes hg
  obtain ⟨m, tiled⟩ := tiled.of_infix here
  obtain ⟨a, b, spaced⟩ := spaced.of_infix here
  have e := part.tokens_eq tiled
  exact ⟨e ▸ here, e ▸ part.covers, words_stand _ g, part.nested spaced, part.wellShaped⟩

/-- A negated call with a signed argument and a body that ends with a lone colon. -/
theorem parse_exact_call :
    ∃ f, parse "-a:- 2(b *c:)" = .ok f ∧ f.nodes.length = 5 ∧
      scan "-a:- 2(b *c:)" = .ok (f.tokens "-a:- 2(b *c:)".toList) := by
  have nodes : (parse "-a:- 2(b *c:)").map (·.nodes.length) = .ok 5 := by decide +kernel
  obtain ⟨f, parsed, nodes⟩ := exists_of_map_eq_ok nodes
  exact ⟨f, parsed, nodes, (parse_exact _ _ parsed).1⟩

end ModCheck.Formula
