import Mathlib.Data.List.Basic
import Mathlib.Tactic.IntervalCases
import ModCheck.Proofs.FormulaTokens
import ModCheck.Proofs.Splitting

/-
  The tokens of a formula without running the scanner. A number is a numeral: digits around an
  optional point and an optional exponent, and these are the texts that are read as decimal numbers
  (`Decimal.isSome_parse?_iff`). The scanner takes the longest token that stands in front
  (`LongestToken`), one after the other (`Scans`). Main statement: `scan_outcome`, the tokens of a
  text cover it, or the scanner has stopped at a character where no token starts.
-/

namespace ModCheck

open List

namespace Decimal

variable {cs digits rest : List Char} {p : Char → Bool}

/-! ## Numerals -/

/-- What may follow the digits of a numeral: nothing, or a mark, perhaps a sign, and digits;
`([eE][+-]?\d+)?`. -/
inductive IsExponent (p : Char → Bool) : List Char → Prop
  | absent : IsExponent p []
  | present {mark : Char} {sign digits : List Char} (marked : mark = 'e' ∨ mark = 'E')
      (signed : sign = [] ∨ sign = ['+'] ∨ sign = ['-']) (some : digits ≠ [])
      (all : ∀ d ∈ digits, p d = true) : IsExponent p (mark :: (sign ++ digits))

/-- Numerals, by what counts as a digit: digits around an optional point, at least one of them, and
an optional exponent; `(\d+\.?\d*|\.\d+)([eE][+-]?\d+)?`. -/
inductive IsNumeral (p : Char → Bool) : List Char → Prop
  | whole {digits exponent : List Char} (some : digits ≠ []) (all : ∀ d ∈ digits, p d = true)
      (more : IsExponent p exponent) : IsNumeral p (digits ++ exponent)
  | pointed {digits fraction exponent : List Char} (some : digits ≠ [] ∨ fraction ≠ [])
      (all : ∀ d ∈ digits, p d = true) (all' : ∀ d ∈ fraction, p d = true)
      (more : IsExponent p exponent) : IsNumeral p (digits ++ '.' :: (fraction ++ exponent))

/-- None of the signs in a numeral counts as a digit. -/
def SparesSigns (p : Char → Bool) : Prop :=
  ∀ c ∈ ['.', 'e', 'E', '+', '-'], p c = false

theorem sparesSigns_isDigit : SparesSigns Char.isDigit := by
  rintro c hc
  rcases by simpa using hc with rfl | rfl | rfl | rfl | rfl <;> decide

/-- An exponent does not start with a digit. -/
theorem IsExponent.not_isDigit (h : IsExponent p cs) (spares : SparesSigns p) :
    ∀ c ∈ cs.head?, p c = false := by
  intro c hc
  cases h with
  | absent => simp at hc
  | present marked signed some all =>
    obtain rfl := Option.some.inj hc
    exact spares _ (by rcases marked with rfl | rfl <;> decide)

theorem IsExponent.not_point (h : IsExponent p cs) : cs.head? ≠ some '.' := by
  intro hc
  cases h with
  | absent => simp at hc
  | present marked signs some all =>
    obtain rfl := Option.some.inj hc
    simp at marked

/-- Digits and what follows them, up to the first character that is none. -/
structure Digits (p : Char → Bool) (digits rest : List Char) : Prop where
  all : ∀ d ∈ digits, p d = true
  stops : ∀ c ∈ rest.head?, p c = false

theorem exists_digits (p : Char → Bool) (cs : List Char) :
    ∃ digits rest, cs = digits ++ rest ∧ Digits p digits rest := by
  refine ⟨cs.takeWhile p, cs.dropWhile p, takeWhile_append_dropWhile.symm, fun d hd => ?_,
    fun c hc => ?_⟩
  · exact all_eq_true.1 all_takeWhile d hd
  · have := head?_dropWhile_not p cs
    rw [Option.mem_def.1 hc] at this
    exact this

theorem Digits.split_eq (h : Digits p digits rest) :
    (digits ++ rest).takeWhile p = digits ∧ (digits ++ rest).dropWhile p = rest := by
  rw [takeWhile_append_of_pos h.all, dropWhile_append_of_pos h.all]
  cases rest with
  | nil => simp
  | cons c rest => simp [h.stops c rfl]

theorem Digits.splitDigits_eq (h : Digits Char.isDigit digits rest) :
    splitDigits (digits ++ rest) = (digits, rest) :=
  Prod.ext h.split_eq.1 h.split_eq.2

/-- What takes a numeral apart at its first digits and at the point takes the numerals. -/
theorem iff_isNumeral (accepts : List Char → Bool) (spares : SparesSigns p)
    (whole : ∀ {digits rest : List Char}, Digits p digits rest → rest.head? ≠ some '.' →
      (accepts (digits ++ rest) = true ↔ digits ≠ [] ∧ IsExponent p rest))
    (pointed : ∀ {digits fraction rest : List Char}, Digits p digits ('.' :: (fraction ++ rest)) →
      Digits p fraction rest → (accepts (digits ++ '.' :: (fraction ++ rest)) = true ↔
        (digits ≠ [] ∨ fraction ≠ []) ∧ IsExponent p rest)) :
    accepts cs = true ↔ IsNumeral p cs := by
  constructor
  · intro h
    obtain ⟨digits, rest, rfl, first⟩ := exists_digits p cs
    by_cases point : rest.head? = some '.'
    · obtain ⟨rest, rfl⟩ := head?_eq_some_iff.1 point
      obtain ⟨fraction, exponent, rfl, second⟩ := exists_digits p rest
      rw [pointed first second] at h
      exact .pointed h.1 first.all second.all h.2
    · rw [whole first point] at h
      exact .whole h.1 first.all h.2
  · intro h
    cases h with
    | whole some all more =>
      exact (whole ⟨all, more.not_isDigit spares⟩ more.not_point).2 ⟨some, more⟩
    | pointed some all all' more =>
      refine (pointed ⟨all, ?_⟩ ⟨all', more.not_isDigit spares⟩).2 ⟨some, more⟩
      rintro _ ⟨⟩
      exact spares '.' (by decide)

/-- A sign that may be absent, and what follows it. -/
structure Signed (sign rest : List Char) : Prop where
  signs : sign = [] ∨ sign = ['+'] ∨ sign = ['-']
  stops : sign = [] → ∀ c ∈ rest.head?, c ≠ '+' ∧ c ≠ '-'

theorem exists_signed (cs : List Char) : ∃ sign rest, cs = sign ++ rest ∧ Signed sign rest := by
  by_cases plus : cs.head? = some '+'
  · obtain ⟨rest, rfl⟩ := head?_eq_some_iff.1 plus
    exact ⟨['+'], rest, rfl, by simp, by simp⟩
  · by_cases minus : cs.head? = some '-'
    · obtain ⟨rest, rfl⟩ := head?_eq_some_iff.1 minus
      exact ⟨['-'], rest, rfl, by simp, by simp⟩
    · refine ⟨[], cs, rfl, by simp, fun _ c hc => ⟨?_, ?_⟩⟩
      · rintro rfl
        exact plus hc
      · rintro rfl
        exact minus hc

theorem signed_of_isDigit {sign : List Char} (signs : sign = [] ∨ sign = ['+'] ∨ sign = ['-'])
    (all : ∀ d ∈ digits, p d = true) (spares : SparesSigns p) : Signed sign digits := by
  refine ⟨signs, fun _ c hc => ?_⟩
  have digit := all c (mem_of_head? hc)
  constructor
  · rintro rfl
    simp [spares '+' (by decide)] at digit
  · rintro rfl
    simp [spares '-' (by decide)] at digit

/-- What takes a mark, a sign and digits takes the exponents. -/
theorem iff_isExponent (accepts : List Char → Bool) (spares : SparesSigns p)
    (none : accepts [] = true)
    (some : ∀ {mark : Char} {sign rest : List Char}, Signed sign rest →
      (accepts (mark :: (sign ++ rest)) = true ↔
        (mark = 'e' ∨ mark = 'E') ∧ rest ≠ [] ∧ ∀ d ∈ rest, p d = true)) :
    accepts cs = true ↔ IsExponent p cs := by
  constructor
  · intro h
    cases cs with
    | nil => exact .absent
    | cons mark cs =>
      obtain ⟨sign, rest, rfl, signed⟩ := exists_signed cs
      obtain ⟨marked, given, all⟩ := (some signed).1 h
      exact .present marked signed.signs given all
  · intro h
    cases h with
    | absent => exact none
    | present marked signs given all =>
      exact (some (signed_of_isDigit signs all spares)).2 ⟨marked, given, all⟩

theorem isSome_ite_none {α : Type} {p : Prop} [Decidable p] {x : Option α} :
    (if p then none else x).isSome = true ↔ ¬ p ∧ x.isSome = true := by
  by_cases p <;> simp [*]

theorem isSome_exponentOf?_iff :
    (exponentOf? cs).isSome = true ↔ IsExponent Char.isDigit cs := by
  refine iff_isExponent (fun cs => (exponentOf? cs).isSome) sparesSigns_isDigit rfl
    fun {mark sign rest} signed => ?_
  rcases signed.signs with rfl | rfl | rfl
  · cases rest with
    | nil => simp [exponentOf?]
    | cons c rest =>
      obtain ⟨plus, minus⟩ := signed.stops rfl c rfl
      by_cases marked : mark = 'e' ∨ mark = 'E' <;> simp [exponentOf?, marked, plus, minus]
  · by_cases marked : mark = 'e' ∨ mark = 'E' <;> simp [exponentOf?, marked]
  · by_cases marked : mark = 'e' ∨ mark = 'E' <;> simp [exponentOf?, marked]

/-- The texts that are read as decimal numbers are the numerals. -/
theorem isSome_parse?_iff : (parse? cs).isSome = true ↔ IsNumeral Char.isDigit cs := by
  refine iff_isNumeral (fun cs => (parse? cs).isSome) sparesSigns_isDigit
    (fun {digits rest} h point => ?_) fun h h' => ?_
  · rw [← isSome_exponentOf?_iff]
    simp only [parse?, h.splitDigits_eq]
    cases rest with
    | nil => simp only [isSome_ite_none]; simp
    | cons c rest =>
      have point : c ≠ '.' := by simpa using point
      simp only [isSome_ite_none]
      simp [point]
  · simp only [parse?, h.splitDigits_eq, h'.splitDigits_eq, isSome_ite_none]
    simp [imp_iff_not_or, isSome_exponentOf?_iff]

end Decimal

namespace Formula

open Decimal (Digits IsExponent IsNumeral exists_digits)

variable {c : Char} {cs digits ds rest text : List Char} {kind : TokenKind} {pos : Nat}

/-! ## The longest number -/

theorem leadingDigits_of_digits (h : Digits Char.isDigit digits rest) :
    leadingDigits (digits ++ rest) = digits :=
  congrArg Prod.fst h.splitDigits_eq

theorem isExponent_leadingExponent (cs : List Char) :
    IsExponent Char.isDigit (leadingExponent cs) := by
  fun_cases leadingExponent cs with
  | case1 => exact .absent
  | case2 => exact .absent
  | case3 mark cs marked sign digits some =>
    refine .present (by simpa using marked) ?_ (by simpa using some) fun d hd => ?_
    · unfold sign
      split <;> simp
    · exact all_eq_true.1 all_takeWhile d hd
  | case4 => exact .absent

theorem leadingNumber_of_digits (h : Digits Char.isDigit digits rest)
    (point : rest.head? ≠ some '.') :
    leadingNumber (digits ++ rest) = digits ++ leadingExponent rest := by
  have none : leadingFraction rest = [] := by
    unfold leadingFraction
    split
    · simp at point
    · rfl
  simp [leadingNumber, leadingDigits_of_digits h, none]

theorem leadingNumber_of_fraction {fraction : List Char}
    (h : Digits Char.isDigit digits ('.' :: (fraction ++ rest)))
    (h' : Digits Char.isDigit fraction rest) :
    leadingNumber (digits ++ '.' :: (fraction ++ rest)) =
      digits ++ '.' :: (fraction ++ leadingExponent rest) := by
  have some : leadingFraction ('.' :: (fraction ++ rest)) = '.' :: fraction :=
    congrArg ('.' :: ·) (leadingDigits_of_digits h')
  unfold leadingNumber
  dsimp only
  rw [leadingDigits_of_digits h, drop_left, some]
  simp

/-- What is scanned as a number is a numeral. -/
theorem isNumeral_leadingNumber (h : startsNumber c cs = true) :
    IsNumeral Char.isDigit (leadingNumber (c :: cs)) := by
  obtain ⟨digits, rest, e, first⟩ := exists_digits Char.isDigit (c :: cs)
  rw [e]
  by_cases point : rest.head? = some '.'
  · obtain ⟨rest, rfl⟩ := head?_eq_some_iff.1 point
    obtain ⟨fraction, more, rfl, second⟩ := exists_digits _ rest
    rw [leadingNumber_of_fraction first second]
    refine .pointed ?_ first.all second.all (isExponent_leadingExponent more)
    -- without digits before the point there is one behind it
    by_contra none
    obtain ⟨rfl, rfl⟩ : digits = [] ∧ fraction = [] := by simpa using none
    obtain ⟨rfl, rfl⟩ := cons.inj e
    cases cs with
    | nil => simp [startsNumber] at h
    | cons d cs =>
      have := second.stops d rfl
      simp [startsNumber, this] at h
  · rw [leadingNumber_of_digits first point]
    refine .whole ?_ first.all (isExponent_leadingExponent rest)
    rintro rfl
    obtain rfl : c :: cs = rest := e
    have hc := first.stops c rfl
    have : c ≠ '.' := by simpa using point
    simp [startsNumber, hc, this] at h

/-- No longer exponent stands in front. -/
theorem exponent_leads (h : IsExponent Char.isDigit text) (leads : text <+: cs) :
    text <+: leadingExponent cs := by
  cases h with
  | absent => exact nil_prefix
  | @present mark sign digits marked signs given all =>
    obtain ⟨rest, rfl⟩ := leads
    have more : leadingDigits (digits ++ rest) = digits ++ leadingDigits rest :=
      takeWhile_append_of_pos all
    have e : leadingExponent (mark :: (sign ++ (digits ++ rest))) =
        mark :: (sign ++ leadingDigits (digits ++ rest)) := by
      obtain ⟨d, ds, rfl⟩ := exists_cons_of_ne_nil given
      have signed := Decimal.signed_of_isDigit signs all Decimal.sparesSigns_isDigit
      rw [cons_append] at more ⊢
      rcases signs with rfl | rfl | rfl
      · obtain ⟨plus, minus⟩ := signed.stops rfl d rfl
        simp [leadingExponent, marked, plus, minus, more]
      · simp [leadingExponent, marked, more]
      · simp [leadingExponent, marked, more]
    rw [cons_append, append_assoc, e, more, ← append_assoc]
    exact (prefix_cons_inj mark).2 (prefix_append _ _)

/-- Digits in front of a text: all of its first digits, or a part of them and nothing else. -/
theorem digits_lead {tail : List Char} (h : Digits Char.isDigit digits rest)
    (all : ∀ d ∈ ds, d.isDigit = true) (stops : ∀ c ∈ tail.head?, c.isDigit = false)
    (hp : ds ++ tail <+: digits ++ rest) :
    tail = [] ∧ ds <+: digits ∨ ds = digits ∧ tail <+: rest := by
  obtain ⟨more, e⟩ := hp
  rw [append_assoc] at e
  cases tail with
  | nil =>
    have := leadingDigits_of_digits h
    rw [← e, leadingDigits, takeWhile_append_of_pos all] at this
    exact Or.inl ⟨rfl, this ▸ prefix_append _ _⟩
  | cons c tail =>
    have h' : Digits Char.isDigit ds (c :: tail ++ more) := ⟨all, by simpa using stops⟩
    have := h'.splitDigits_eq
    rw [e, h.splitDigits_eq] at this
    obtain ⟨rfl, rfl⟩ := Prod.mk.inj this
    exact Or.inr ⟨rfl, prefix_append _ _⟩

/-- No longer numeral stands in front. -/
theorem numeral_leads (h : IsNumeral Char.isDigit text) (leads : text <+: cs) :
    text <+: leadingNumber cs := by
  obtain ⟨digits, rest, rfl, first⟩ := exists_digits Char.isDigit cs
  have whole : digits <+: leadingNumber (digits ++ rest) := by
    conv_lhs => rw [← leadingDigits_of_digits first]
    rw [leadingNumber, append_assoc]
    exact prefix_append _ _
  cases h with
  | @whole ds exponent given all more =>
    have stops := more.not_isDigit Decimal.sparesSigns_isDigit
    rcases digits_lead first all stops leads with ⟨rfl, part⟩ | ⟨rfl, behind⟩
    · rw [append_nil]
      exact part.trans whole
    · by_cases point : rest.head? = some '.'
      · -- no exponent starts with the point
        obtain rfl : exponent = [] := by
          obtain ⟨rest, rfl⟩ := behind
          cases exponent with
          | nil => rfl
          | cons c exponent => exact absurd point more.not_point
        rwa [append_nil]
      · rw [leadingNumber_of_digits first point]
        exact (prefix_append_right_inj _).2 (exponent_leads more behind)
  | @pointed ds fraction exponent given all all' more =>
    have stops : ∀ c ∈ ('.' :: (fraction ++ exponent)).head?, c.isDigit = false := by simp
    rcases digits_lead first all stops leads with ⟨e, -⟩ | ⟨rfl, behind⟩
    · simp at e
    · obtain ⟨rest, rfl⟩ : ∃ more, rest = '.' :: more := by
        obtain ⟨rest, rfl⟩ := behind
        exact ⟨_, rfl⟩
      obtain ⟨fraction', rest, rfl, second⟩ := exists_digits _ rest
      rw [leadingNumber_of_fraction first second]
      refine (prefix_append_right_inj _).2 ((prefix_cons_inj '.').2 ?_)
      have behind' := (prefix_cons_inj '.').1 behind
      have stops := more.not_isDigit Decimal.sparesSigns_isDigit
      rcases digits_lead second all' stops behind' with ⟨rfl, part⟩ | ⟨rfl, last⟩
      · rw [append_nil]
        exact part.trans (prefix_append _ _)
      · exact (prefix_append_right_inj _).2 (exponent_leads more last)

/-! ## The texts of tokens -/

/-- The texts that are one token: signs, numerals, and names. -/
inductive TokenText : TokenKind → List Char → Prop
  | sign {c : Char} {kind : TokenKind} (h : signKind? c = some kind) : TokenText kind [c]
  | number {text : List Char} {d : Decimal} (h : Decimal.parse? text = some d) :
      TokenText (.number (.ofDecimal d)) text
  | name {c : Char} {cs : List Char} (start : isNameStart c = true)
      (all : ∀ d ∈ cs, isNameChar d = true) : TokenText .ident (c :: cs)

theorem not_start_of_isDigit (h : c.isDigit = true) :
    signKind? c = none ∧ isNameStart c = false := by
  obtain ⟨low, high⟩ : 48 ≤ c.toNat ∧ c.toNat ≤ 57 := Char.isDigit_iff_toNat.1 h
  rw [← Char.ofNat_toNat c]
  generalize c.toNat = n at low high
  interval_cases n <;> decide

theorem not_start_of_startsNumber (h : startsNumber c cs = true) :
    signKind? c = none ∧ isNameStart c = false := by
  by_cases hc : c.isDigit = true
  · exact not_start_of_isDigit hc
  · obtain ⟨rfl, -⟩ : c = '.' ∧ _ := by simpa [startsNumber, hc] using h
    decide

theorem not_isNameStart_of_sign (h : signKind? c = some kind) : isNameStart c = false := by
  unfold signKind? at h
  split at h
  all_goals first | decide | cases h

theorem startsNumber_of_isNumeral (h : IsNumeral Char.isDigit (c :: ds)) (leads : ds <+: cs) :
    startsNumber c cs = true := by
  generalize e : c :: ds = text at h
  cases h with
  | @whole digits exponent given all more =>
    obtain ⟨d, digits, rfl⟩ := exists_cons_of_ne_nil given
    obtain ⟨rfl, -⟩ := cons.inj e
    simp [startsNumber, all c mem_cons_self]
  | @pointed digits fraction exponent given all all' more =>
    cases digits with
    | cons d digits =>
      obtain ⟨rfl, -⟩ := cons.inj e
      simp [startsNumber, all c mem_cons_self]
    | nil =>
      obtain ⟨rfl, rfl⟩ := cons.inj e
      obtain ⟨d, fraction, rfl⟩ := exists_cons_of_ne_nil (given.resolve_left (by simp))
      obtain ⟨rest, rfl⟩ := leads
      simp [startsNumber, all' d mem_cons_self]

/-- How a token starts. -/
inductive TokenStart (kind : TokenKind) (text : List Char) (c : Char) (cs : List Char) : Prop
  | sign (h : signKind? c = some kind) (whole : text = [c])
  | number {d : Decimal} (h : Decimal.parse? text = some d) (hk : kind = .number (.ofDecimal d))
      (start : startsNumber c cs = true)
  | name (hk : kind = .ident) (start : isNameStart c = true)
      (part : text <+: c :: cs.takeWhile isNameChar)

theorem TokenText.starts (h : TokenText kind text) (leads : text <+: c :: cs) :
    TokenStart kind text c cs := by
  cases h with
  | @sign b kind h =>
    obtain rfl : b = c := by simpa using leads
    exact .sign h rfl
  | @number text d h =>
    have numeral : IsNumeral Char.isDigit text := Decimal.isSome_parse?_iff.1 (by rw [h]; rfl)
    cases text with
    | nil => simp [Decimal.parse?, Decimal.splitDigits] at h
    | cons b ds =>
      obtain ⟨rfl, part⟩ := cons_prefix_cons.1 leads
      exact .number h rfl (startsNumber_of_isNumeral numeral part)
  | @name b ds start all =>
    obtain ⟨rfl, rest, rfl⟩ := cons_prefix_cons.1 leads
    refine .name rfl start ?_
    rw [takeWhile_append_of_pos all]
    exact (prefix_cons_inj b).2 (prefix_append _ _)

/-- The text of a token tells its kind. -/
theorem TokenStart.kind_eq {kind' : TokenKind} (h : TokenStart kind text c cs)
    (h' : TokenStart kind' text c cs) : kind = kind' := by
  cases h with
  | sign sign whole =>
    cases h' with
    | sign sign' _ => exact Option.some.inj (sign.symm.trans sign')
    | number _ _ start => simp [(not_start_of_startsNumber start).1] at sign
    | name _ start _ => simp [not_isNameStart_of_sign sign] at start
  | number value hk start =>
    cases h' with
    | sign sign _ => simp [(not_start_of_startsNumber start).1] at sign
    | number value' hk' _ => rw [hk, hk', Option.some.inj (value.symm.trans value')]
    | name _ start' _ => simp [(not_start_of_startsNumber start).2] at start'
  | name hk start part =>
    cases h' with
    | sign sign _ => simp [not_isNameStart_of_sign sign] at start
    | number _ _ start' => simp [(not_start_of_startsNumber start').2] at start
    | name hk' _ _ => rw [hk, hk']

/-- A token in front of a text, and no longer one stands there. -/
structure LongestToken (kind : TokenKind) (text cs : List Char) : Prop where
  token : TokenText kind text
  leads : text <+: cs
  longest : ∀ kind' text', TokenText kind' text' → text' <+: cs → text' <+: text

/-- No token stands in front of a text. -/
def StartsNoToken (cs : List Char) : Prop :=
  ∀ kind text, TokenText kind text → ¬ text <+: cs

theorem LongestToken.of_leads (h : LongestToken kind text cs) (part : ds <+: cs)
    (leads : text <+: ds) : LongestToken kind text ds :=
  ⟨h.token, leads, fun kind' text' token leads' => h.longest kind' text' token (leads'.trans part)⟩

theorem longestToken_of_leadingToken (h : leadingToken pos c cs = .ok (kind, text)) :
    LongestToken kind text (c :: cs) := by
  have leads := (leadingToken_leads h).2
  unfold leadingToken at h
  split at h
  · next sign =>
    obtain ⟨rfl, rfl⟩ := Prod.mk.inj (Except.ok.inj h)
    refine ⟨.sign sign, leads, fun kind' text' token leads' => ?_⟩
    cases token.starts leads' with
    | sign _ whole => exact whole ▸ prefix_refl _
    | number _ _ start => simp [(not_start_of_startsNumber start).1] at sign
    | name _ start _ => simp [not_isNameStart_of_sign sign] at start
  · next noSign =>
    split at h
    · next number =>
      dsimp only at h
      split at h
      · next d value =>
        obtain ⟨rfl, rfl⟩ := Prod.mk.inj (Except.ok.inj h)
        refine ⟨.number value, leads, fun kind' text' token leads' => ?_⟩
        cases token.starts leads' with
        | sign sign _ => simp [noSign] at sign
        | number value' _ _ =>
          exact numeral_leads (Decimal.isSome_parse?_iff.1 (by rw [value']; rfl)) leads'
        | name _ start _ => simp [(not_start_of_startsNumber number).2] at start
      · simp at h
    · next noNumber =>
      split at h
      · next name =>
        obtain ⟨rfl, rfl⟩ := Prod.mk.inj (Except.ok.inj h)
        have all : ∀ d ∈ cs.takeWhile isNameChar, isNameChar d = true :=
          all_eq_true.1 all_takeWhile
        refine ⟨.name name all, leads, fun kind' text' token leads' => ?_⟩
        cases token.starts leads' with
        | sign sign _ => simp [noSign] at sign
        | number _ _ start => exact absurd start noNumber
        | name _ _ part => exact part
      · simp at h

/-- The scanner gives up where no token starts, and for no other reason. -/
theorem startsNoToken_of_leadingToken {fault : Fault} (h : leadingToken pos c cs = .error fault) :
    fault = .unexpectedChar c pos ∧ StartsNoToken (c :: cs) := by
  unfold leadingToken at h
  split at h
  · simp at h
  · next noSign =>
    split at h
    · next number =>
      dsimp only at h
      split at h
      · simp at h
      · next none =>
        have := Decimal.isSome_parse?_iff.2 (isNumeral_leadingNumber number)
        simp [none] at this
    · next noNumber =>
      split at h
      · simp at h
      · next noName =>
        refine ⟨(Except.error.inj h).symm, fun kind text token leads => ?_⟩
        cases token.starts leads with
        | sign sign _ => simp [noSign] at sign
        | number _ _ start => exact noNumber start
        | name _ start _ => exact noName start

theorem LongestToken.leadingToken_eq (h : LongestToken kind text (c :: cs)) (pos : Nat) :
    leadingToken pos c cs = .ok (kind, text) := by
  cases e : leadingToken pos c cs with
  | error fault => exact absurd h.leads ((startsNoToken_of_leadingToken e).2 kind text h.token)
  | ok found =>
    obtain ⟨kind', text'⟩ := found
    have h' := longestToken_of_leadingToken e
    have le := h'.longest kind text h.token h.leads
    have ge := h.longest kind' text' h'.token h'.leads
    obtain rfl := le.eq_of_length (Nat.le_antisymm le.length_le ge.length_le)
    rw [(h.token.starts h.leads).kind_eq (h'.token.starts h'.leads)]

/-! ## The characters of tokens -/

theorem isDecimalDigit_of_isDigit (h : c.isDigit = true) : Text.isDecimalDigit c = true := by
  obtain ⟨low, high⟩ : 48 ≤ c.toNat ∧ c.toNat ≤ 57 := Char.isDigit_iff_toNat.1 h
  simp [Text.isDecimalDigit, Text.RunTable.contains, Text.decimalDigit, Text.RunTable.containsFrom,
    low, Nat.lt_succ_of_le high]

theorem isNameChar_of_isDigit (h : c.isDigit = true) : isNameChar c = true := by
  have ascii : Text.decimalDigit.contains c = true := isDecimalDigit_of_isDigit h
  simp [isNameChar, Text.isNumeric, ascii]

/-- A character that some token can have. -/
def IsTokenChar (c : Char) : Prop :=
  isNameChar c = true ∨ (signKind? c).isSome = true

/-- A numeral: digits and perhaps a point, and an exponent. -/
theorem numeral_parts {p : Char → Bool} (h : IsNumeral p text) : ∃ w exponent,
    text = w ++ exponent ∧ IsExponent p exponent ∧ ∀ c ∈ w, p c = true ∨ c = '.' := by
  cases h with
  | whole some all more => exact ⟨_, _, rfl, more, fun c hc => .inl (all c hc)⟩
  | @pointed digits fraction exponent some all all' more =>
    refine ⟨digits ++ '.' :: fraction, exponent, by simp, more, fun c hc => ?_⟩
    rcases mem_append.1 hc with hc | hc
    · exact .inl (all c hc)
    · exact (mem_cons.1 hc).symm.imp_left (all' c)

/-- A numeral has no other characters than names have, but for the sign of its exponent. -/
theorem numeral_shape (h : IsNumeral Char.isDigit text) :
    (∀ c ∈ text, isNameChar c = true) ∨ ∃ w mark sign ds, text = w ++ [mark] ++ sign :: ds ∧
      (mark = 'e' ∨ mark = 'E') ∧ (sign = '+' ∨ sign = '-') ∧
      ∀ c ∈ w ++ [mark] ++ ds, isNameChar c = true := by
  obtain ⟨w, exponent, rfl, more, all⟩ := numeral_parts h
  have word : ∀ c ∈ w, isNameChar c = true := fun c hc => by
    rcases all c hc with digit | rfl
    · exact isNameChar_of_isDigit digit
    · decide
  cases more with
  | absent => exact .inl (by simpa using word)
  | @present mark sign digits marked signs given all' =>
    have first : isNameChar mark = true := by rcases marked with rfl | rfl <;> decide
    have chars : ∀ c ∈ w ++ [mark] ++ digits, isNameChar c = true := by
      simpa [or_imp, forall_and, first] using
        And.intro word fun c hc => isNameChar_of_isDigit (all' c hc)
    rcases signs with rfl | rfl | rfl
    · exact .inl (by simpa using chars)
    · exact .inr ⟨w, mark, '+', digits, by simp, marked, .inl rfl, chars⟩
    · exact .inr ⟨w, mark, '-', digits, by simp, marked, .inr rfl, chars⟩

theorem not_isNumeral_of_mark {mark : Char} (marked : mark = 'e' ∨ mark = 'E') (w : List Char) :
    ¬ IsNumeral Char.isDigit (w ++ [mark]) := by
  intro h
  obtain ⟨v, exponent, e, more, all⟩ := numeral_parts h
  have digit : ¬ (mark.isDigit = true ∨ mark = '.') := by rcases marked with rfl | rfl <;> decide
  cases more with
  | absent =>
    rw [append_nil] at e
    exact digit (all mark (by simp [← e]))
  | @present _ _ digits _ _ given all' =>
    obtain ⟨front, d, rfl⟩ := (eq_nil_or_concat' digits).resolve_left given
    obtain rfl : mark = d := by simpa using congrArg (·.reverse.head?) e
    exact digit (.inl (all' mark (by simp)))

theorem TokenText.isTokenChar (h : TokenText kind text) : ∀ c ∈ text, IsTokenChar c := by
  intro c hc
  cases h with
  | sign h =>
    rw [mem_singleton.1 hc]
    exact .inr (by rw [h]; rfl)
  | number h =>
    rcases numeral_shape (Decimal.isSome_parse?_iff.1 (by rw [h]; rfl)) with
      all | ⟨w, mark, sign, ds, rfl, -, signs, all⟩
    · exact .inl (all c hc)
    · by_cases e : c = sign
      · rcases signs with rfl | rfl <;> exact .inr (by rw [e]; rfl)
      · exact .inl (all c (by simpa [e] using hc))
  | name start all =>
    refine .inl ?_
    rcases mem_cons.1 hc with rfl | hc
    · simp only [isNameStart, Bool.or_eq_true] at start
      rcases start with start | start <;> simp [isNameChar, start]
    · exact all c hc

theorem isNameChar_of_isBlank (h : Text.isBlank c = true) : isNameChar c = false :=
  not_isWordChar_of_isBlank h

theorem IsTokenChar.visible (h : IsTokenChar c) : Text.isBlank c = false := by
  by_contra hb
  have hb : Text.isBlank c = true := by simpa using hb
  rcases h with word | sign
  · simp [isNameChar_of_isBlank hb] at word
  · unfold signKind? at sign
    split at sign
    all_goals first | exact absurd hb (by decide) | cases sign

theorem TokenText.ne_nil (h : TokenText kind text) : text ≠ [] := by
  rintro rfl
  cases h with
  | number h => simp [Decimal.parse?, Decimal.splitDigits] at h

/-- No token goes on over a character that is in no name, but for the sign of an exponent. -/
theorem LongestToken.append (h : LongestToken kind text cs) (hc : isNameChar c = false)
    (stop : text = cs ∨ c ≠ '+' ∧ c ≠ '-') (ds : List Char) :
    LongestToken kind text (cs ++ c :: ds) := by
  refine ⟨h.token, h.leads.trans (prefix_append _ _), fun kind' text' token leads => ?_⟩
  rcases prefix_or_prefix_of_prefix leads (prefix_append cs (c :: ds)) with
    short | ⟨more, rfl⟩
  · exact h.longest kind' text' token short
  · cases more with
    | nil => exact h.longest kind' _ token (by simp)
    | cons d more =>
      -- a longer token goes on with the character, so it is a number and the character its sign
      exfalso
      obtain ⟨rfl, -⟩ := cons_prefix_cons.1 ((prefix_append_right_inj cs).1 leads)
      have given : cs ≠ [] := fun e => h.token.ne_nil (prefix_nil.1 (e ▸ h.leads))
      obtain ⟨b, bs, rfl⟩ := exists_cons_of_ne_nil given
      generalize e : b :: bs ++ d :: more = text' at token
      cases token with
      | sign => simp at e
      | name start all =>
        obtain ⟨rfl, rfl⟩ := cons.inj e
        simp [all d (by simp)] at hc
      | number value =>
        have numeral := Decimal.isSome_parse?_iff.1 (Option.isSome_of_eq_some value)
        rcases numeral_shape numeral with all | ⟨w, mark, sign, ds, shape, marked, signs, all⟩
        · simp [all d (by simp [← e])] at hc
        · have out (ws : List Char) (sub : ws ⊆ w ++ [mark] ++ ds) : d ∉ ws := fun hd => by
            simp [all d (sub hd)] at hc
          obtain ⟨before, rfl, -⟩ := (append_cons_inj_of_notMem (out _ (by simp))
            (out _ (by simp))).1 (shape.symm.trans e.symm)
          obtain rfl := stop.resolve_right fun other => signs.elim other.1 other.2
          have start := not_start_of_startsNumber
            (startsNumber_of_isNumeral (e.symm ▸ numeral) (prefix_refl (bs ++ sign :: more)))
          cases h.token with
          | sign sign => simp [start.1] at sign
          | number value =>
            exact not_isNumeral_of_mark marked w
              (before ▸ Decimal.isSome_parse?_iff.1 (by rw [value]; rfl))
          | name first => simp [start.2] at first

/-! ## Tokens that cover a text -/

/-- How a text is scanned from character `pos` on: a blank is passed over, and a token is taken that
is the longest in front. -/
inductive Scans : Nat → List Char → List Token → Prop
  | done {pos : Nat} : Scans pos [] []
  | blank {pos : Nat} {c : Char} {cs : List Char} {ts : List Token} (h : Text.isBlank c = true)
      (more : Scans (pos + 1) cs ts) : Scans pos (c :: cs) ts
  | token {pos : Nat} {kind : TokenKind} {text rest : List Char} {ts : List Token}
      (longest : LongestToken kind text (text ++ rest)) (more : Scans (pos + text.length) rest ts) :
      Scans pos (text ++ rest) (⟨kind, String.ofList text, ⟨pos, pos + text.length⟩⟩ :: ts)

theorem scans_iff {ts : List Token} : tokensFrom pos cs = .ok ts ↔ Scans pos cs ts := by
  constructor
  · intro h
    fun_induction tokensFrom pos cs generalizing ts with
    | case1 pos =>
      obtain rfl := Except.ok.inj h
      exact .done
    | case2 pos c cs hb ih => exact .blank hb (ih h)
    | case3 => simp at h
    | case4 => simp at h
    | case5 pos c cs hb kind text token us more ih =>
      obtain rfl := Except.ok.inj h
      have longest := longestToken_of_leadingToken token
      obtain ⟨d, ds, rfl⟩ := exists_cons_of_ne_nil longest.token.ne_nil
      obtain ⟨rfl, rest, rfl⟩ := cons_prefix_cons.1 longest.leads
      exact .token longest (by simpa using ih more)
  · intro h
    induction h with
    | done => rw [tokensFrom]
    | blank hb more ih => rw [tokensFrom, if_pos hb, ih]
    | @token pos kind text rest ts longest more ih =>
      obtain ⟨c, cs, rfl⟩ := exists_cons_of_ne_nil longest.token.ne_nil
      have hc : ¬ Text.isBlank c = true := by
        simp [(longest.token.isTokenChar c mem_cons_self).visible]
      have found : leadingToken pos c (cs ++ rest) = .ok (kind, c :: cs) :=
        longest.leadingToken_eq pos
      have behind : (cs ++ rest).drop ((c :: cs).length - 1) = rest := drop_left
      rw [cons_append, tokensFrom, if_neg hc, found]
      dsimp only
      rw [behind, ih]

section

variable {ts : List Token}

theorem Scans.spaced (h : Scans pos cs ts) : Spaced pos ts (pos + cs.length) := by
  induction h with
  | done => exact Nat.le_refl _
  | @blank pos c cs ts hb more ih =>
    rw [length_cons, Nat.add_comm cs.length, ← Nat.add_assoc]
    exact ih.mono (Nat.le_succ pos)
  | token longest more ih =>
    rw [length_append, ← Nat.add_assoc]
    exact ⟨Nat.le_refl _, Nat.lt_add_of_pos_right (length_pos_iff.2 longest.token.ne_nil), ih⟩

/-- The tokens of a text are spaced out over its characters. -/
theorem spaced_scan {text : String} (h : scan text = .ok ts) : Spaced 0 ts text.length := by
  have := (scans_iff.1 h).spaced
  rwa [Nat.zero_add] at this

theorem Scans.longest (h : Scans pos cs ts) (hcs : text.drop pos = cs) :
    ∀ t ∈ ts, LongestToken t.kind t.text.toList (text.drop t.span.start) ∧
      textAt text t.span = t.text.toList := by
  induction h with
  | done => simp
  | blank hb more ih => exact ih (by rw [← drop_drop, hcs]; rfl)
  | @token pos kind chars rest ts longest more ih =>
    refine forall_mem_cons.2 ⟨?_, ih (by rw [← drop_drop, hcs, drop_left])⟩
    rw [hcs, String.toList_ofList]
    exact ⟨longest, textAt_of_drop hcs longest.leads⟩

theorem Scans.blank_outside (h : Scans pos cs ts) {i : Nat} (hc : cs[i]? = some c)
    (outside : ∀ t ∈ ts, pos + i < t.span.start ∨ t.span.stop ≤ pos + i) :
    Text.isBlank c = true := by
  induction h generalizing i with
  | done => simp at hc
  | @blank pos b cs ts hb more ih =>
    cases i with
    | zero =>
      obtain rfl : b = c := by simpa using hc
      exact hb
    | succ i =>
      refine ih (by simpa using hc) fun t ht => ?_
      have := outside t ht
      omega
  | @token pos kind chars rest ts longest more ih =>
    obtain ⟨first, others⟩ := forall_mem_cons.1 outside
    obtain ⟨k, rfl⟩ : ∃ k, i = chars.length + k := ⟨i - chars.length, by dsimp only at first; omega⟩
    rw [getElem?_append_right (Nat.le_add_right _ _), Nat.add_sub_cancel_left] at hc
    exact ih hc (by simpa only [Nat.add_assoc] using others)

end

/-- Tokens that cover a text: they stand in it one behind the other, each of them on its own
characters and the longest that starts there, with nothing but blanks around them. -/
structure Covering (text : List Char) (ts : List Token) : Prop where
  ordered : ts.Pairwise fun t u => t.span.stop ≤ u.span.start
  bounded : ∀ t ∈ ts, t.span.start < t.span.stop ∧ t.span.stop ≤ text.length
  here : ∀ t ∈ ts, textAt text t.span = t.text.toList
  longest : ∀ t ∈ ts, LongestToken t.kind t.text.toList (text.drop t.span.start)
  blank : ∀ i c, text[i]? = some c → (∀ t ∈ ts, i < t.span.start ∨ t.span.stop ≤ i) →
    Text.isBlank c = true

/-- Where the scanner gives up, no token starts, and it has found the tokens of the text before. -/
theorem tokensFrom_error {fault : Fault} (h : tokensFrom pos cs = .error fault) :
    ∃ before c rest ts, cs = before ++ c :: rest ∧
      fault = .unexpectedChar c (pos + before.length) ∧ Text.isBlank c = false ∧
      StartsNoToken (c :: rest) ∧ Scans pos before ts := by
  fun_induction tokensFrom pos cs with
  | case1 => simp at h
  | case2 pos b cs hb ih =>
    obtain ⟨before, c, rest, ts, rfl, rfl, visible, none, scanned⟩ := ih h
    refine ⟨b :: before, c, rest, ts, rfl, ?_, visible, none, .blank hb scanned⟩
    rw [length_cons, Nat.add_comm before.length, Nat.add_assoc]
  | case3 pos c cs hb fault' token =>
    obtain rfl := Except.error.inj h
    obtain ⟨rfl, none⟩ := startsNoToken_of_leadingToken token
    exact ⟨[], c, cs, [], rfl, rfl, by simpa using hb, none, .done⟩
  | case4 pos b cs hb kind chars token fault' more ih =>
    obtain rfl := Except.error.inj h
    obtain ⟨before, c, rest, ts, behind, rfl, visible, none, scanned⟩ := ih more
    have longest := longestToken_of_leadingToken token
    obtain ⟨d, ds, rfl⟩ := exists_cons_of_ne_nil longest.token.ne_nil
    obtain ⟨rfl, more', rfl⟩ := cons_prefix_cons.1 longest.leads
    obtain rfl : more' = before ++ c :: rest := by simpa using behind
    have part : d :: ds ++ before <+: d :: (ds ++ (before ++ c :: rest)) := ⟨c :: rest, by simp⟩
    refine ⟨d :: ds ++ before, c, rest, _, by simp, ?_, visible, none,
      .token (longest.of_leads part (prefix_append _ _)) scanned⟩
    rw [length_append, Nat.add_assoc]
  | case5 => simp at h

/-- How scanning a formula ends: with tokens that cover the text, or at the first character where no
token starts, and then everything before it is scanned. No number is ever refused. -/
theorem scan_outcome (text : String) :
    match scan text with
    | .ok ts => Covering text.toList ts
    | .error fault =>
      ∃ before c rest ts, text.toList = before ++ c :: rest ∧
        fault = .unexpectedChar c before.length ∧ Text.isBlank c = false ∧
        StartsNoToken (c :: rest) ∧ scan (String.ofList before) = .ok ts := by
  cases scanned : scan text with
  | error fault =>
    obtain ⟨before, c, rest, ts, e, rfl, visible, none, first⟩ := tokensFrom_error scanned
    refine ⟨before, c, rest, ts, e, by rw [Nat.zero_add], visible, none, ?_⟩
    rw [scan, String.toList_ofList]
    exact scans_iff.2 first
  | ok ts =>
    have spaced := spaced_scan scanned
    have tokens := (scans_iff.1 scanned).longest rfl
    exact {
      ordered := spaced.pairwise
      bounded := fun t ht => by
        rw [String.length_toList]
        exact (spaced.bounds t ht).2
      here := fun t ht => (tokens t ht).2
      longest := fun t ht => (tokens t ht).1
      blank := fun i c hc outside =>
        (scans_iff.1 scanned).blank_outside hc (by simpa using outside) }

end Formula

end ModCheck
