import ModCheck.Json.Parser
import ModCheck.Json.Printer

/-
  JSON text that is written and read back. `Spells` says which texts stand for a value, with any
  space between the tokens; what is printed on one line or over several spells the value printed
  (`spells_compact`, `spells_prettyAt`), and the parser reads whatever a text spells
  (`parse?_of_spells`). Writing and reading never have to be looked at together.
-/

namespace ModCheck.Json

open List

variable {c : Char} {cs : List Char} {j : Json}

/-! ## Strings -/

section

variable (rest : List Char)

theorem scanString_plain (hq : c ≠ '\x22') (hb : c ≠ '\x5c') (hc : ¬c.toNat < 32) :
    scanString (c :: rest) = (scanString rest).map fun r => (.char c :: r.1, r.2) := by
  rw [scanString.eq_5 c rest hq (fun _ _ _ _ _ h => absurd h hb) (fun _ _ h => absurd h hb),
    if_neg hc]
  cases scanString rest <;> rfl

theorem scanString_escaped {e : Char} (h : escaped? e = some c) :
    scanString ('\x5c' :: e :: rest) = (scanString rest).map fun r => (.char c :: r.1, r.2) := by
  have hu : e ≠ 'u' := by
    rintro rfl
    simp [escaped?] at h
  rw [scanString.eq_4 e rest fun _ _ _ _ _ h => absurd h hu, h]
  cases scanString rest <;> rfl

theorem scanString_numbered {a b d : Char} {n : Nat} (h : hexUnit? a b c d = some n) :
    scanString ('\x5c' :: 'u' :: a :: b :: c :: d :: rest) =
      (scanString rest).map fun r => (.unit n :: r.1, r.2) := by
  rw [scanString, h]
  cases scanString rest <;> rfl

end

/-- Control characters are numbered with two digits behind two zeros. -/
theorem hexUnit?_control :
    ∀ n < 32, hexUnit? '0' '0' (hexDigit (n / 16)) (hexDigit n) = some n := by
  decide

theorem joinUnits_control (h : c.toNat < 32) (units : List StringUnit) :
    joinUnits (.unit c.toNat :: units) = (joinUnits units).map (c :: ·) := by
  have high : isHighSurrogate c.toNat = false := by simp [isHighSurrogate]; omega
  have low : isLowSurrogate c.toNat = false := by simp [isLowSurrogate]; omega
  rw [joinUnits.eq_def]
  simp [high, low]

/-- An escaped character is read as one unit, which stands for the character. -/
theorem scanString_escapeChar (c : Char) : ∃ unit,
    (∀ rest, scanString (escapeChar c ++ rest) =
      (scanString rest).map fun r => (unit :: r.1, r.2)) ∧
    ∀ units, joinUnits (unit :: units) = (joinUnits units).map (c :: ·) := by
  have letter {e : Char} (h : escaped? e = some c) (he : escapeChar c = ['\x5c', e]) : ∃ unit,
      (∀ rest, scanString (escapeChar c ++ rest) =
        (scanString rest).map fun r => (unit :: r.1, r.2)) ∧
      ∀ units, joinUnits (unit :: units) = (joinUnits units).map (c :: ·) :=
    ⟨.char c, fun rest => by rw [he]; exact scanString_escaped rest h, fun _ => rfl⟩
  -- seven characters have a letter; of the others, only control characters are numbered
  by_cases short : c ∈ ['\x22', '\x5c', '\n', '\r', '\t', '\x08', '\x0c']
  · simp only [mem_cons, not_mem_nil, or_false] at short
    rcases short with rfl | rfl | rfl | rfl | rfl | rfl | rfl
    all_goals exact letter rfl rfl
  · simp only [mem_cons, not_or] at short
    obtain ⟨hq, hb, hn, hr, ht, hs, hf⟩ := short
    by_cases hc : c.toNat < 32
    · refine ⟨.unit c.toNat, fun rest => ?_, joinUnits_control hc⟩
      simp only [escapeChar, beq_iff_eq, hq, hb, hn, hr, ht, hs, hf, hc]
      exact scanString_numbered rest (hexUnit?_control _ hc)
    · refine ⟨.char c, fun rest => ?_, fun _ => rfl⟩
      simp only [escapeChar, beq_iff_eq, hq, hb, hn, hr, ht, hs, hf, hc]
      exact scanString_plain rest hq hb hc

theorem scanString_flatMap (cs rest : List Char) : ∃ units,
    scanString (cs.flatMap escapeChar ++ '\x22' :: rest) = some (units, rest) ∧
      joinUnits units = some cs := by
  induction cs with
  | nil => exact ⟨[], rfl, rfl⟩
  | cons c cs ih =>
    obtain ⟨units, scanned, joined⟩ := ih
    obtain ⟨unit, read, stands⟩ := scanString_escapeChar c
    refine ⟨unit :: units, ?_, by rw [stands, joined]; rfl⟩
    rw [flatMap_cons, append_assoc, read, scanned]
    rfl

/-! ## Numbers -/

/-- What may stand behind a value. -/
def closes (c : Char) : Bool :=
  isSpace c || c == ',' || c == ']' || c == '\x7d'

/-- A rest that does not prolong the value before it. -/
def Ends (rest : List Char) : Prop :=
  ∀ c ∈ rest.head?, closes c = true

theorem closes_ne (h : closes c = true) : c.isDigit = false ∧ c ≠ '.' ∧ c ≠ 'e' ∧ c ≠ 'E' := by
  simp only [closes, isSpace, Bool.or_eq_true, beq_iff_eq] at h
  rcases h with (((((rfl | rfl) | rfl) | rfl) | rfl) | rfl) | rfl <;> decide

theorem toDigits_head {n : Nat} (h : n ≠ 0) :
    ∃ d ds, Nat.toDigits 10 n = d :: ds ∧ d ≠ '0' := by
  induction n using Nat.strongRecOn with
  | _ n ih =>
    by_cases hn : n < 10
    · have small : ∀ m < 10, m ≠ 0 → m.digitChar ≠ '0' := by decide
      exact ⟨n.digitChar, [], Nat.toDigits_of_lt_base hn, small n hn h⟩
    · obtain ⟨d, ds, e, hd⟩ := ih (n / 10) (by omega) (by omega)
      refine ⟨d, ds ++ [(n % 10).digitChar], ?_, hd⟩
      rw [Nat.toDigits_of_base_le (by decide) (by omega), e]
      rfl

section

variable (n : Nat) {rest : List Char} (hrest : Ends rest)

theorem digitsFrom_toDigits : Decimal.digitsFrom 0 (Nat.toDigits 10 n) = n := by
  rw [Decimal.digitsFrom, ← Nat.ofDigitChars_eq_foldl, Nat.ofDigitChars_ten_toDigits]

theorem isDigit_toDigits : ∀ c ∈ Nat.toDigits 10 n, c.isDigit = true :=
  fun _ h => Nat.isDigit_of_mem_toDigits (by decide) (by decide) h

theorem takeWhile_toDigits (rest : List Char) :
    (Nat.toDigits 10 n ++ rest).takeWhile Char.isDigit =
      Nat.toDigits 10 n ++ rest.takeWhile Char.isDigit :=
  takeWhile_append_of_pos (isDigit_toDigits n)

/-- A number starts with a digit, and so with no other character. -/
theorem toDigits_start :
    ∃ d ds, Nat.toDigits 10 n = d :: ds ∧ ∀ {c : Char}, c.isDigit = false → d ≠ c := by
  obtain ⟨d, ds, e⟩ := exists_cons_of_ne_nil (Nat.toDigits_ne_nil (b := 10) (n := n))
  refine ⟨d, ds, e, ?_⟩
  rintro _ hc rfl
  simp [isDigit_toDigits n d (by simp [e])] at hc

theorem parse?_toDigits : Decimal.parse? (Nat.toDigits 10 n) = some ⟨n, 0⟩ := by
  have whole : (Nat.toDigits 10 n).takeWhile Char.isDigit = Nat.toDigits 10 n := by
    simpa using takeWhile_toDigits n []
  have rest : (Nat.toDigits 10 n ++ []).dropWhile Char.isDigit = [] :=
    dropWhile_append_of_pos (isDigit_toDigits n)
  rw [append_nil] at rest
  have nothing : Decimal.digitsFrom n [] = n := rfl
  simp [Decimal.parse?, Decimal.splitDigits, whole, rest, Nat.toDigits_ne_nil,
    Decimal.exponentOf?, digitsFrom_toDigits, nothing]

include hrest

theorem wholeDigits_toDigits : wholeDigits (Nat.toDigits 10 n ++ rest) = Nat.toDigits 10 n := by
  have none : rest.takeWhile Char.isDigit = [] := by
    cases rest with
    | nil => rfl
    | cons c cs => simp [(closes_ne (hrest c rfl)).1]
  have all := takeWhile_toDigits n rest
  by_cases hn : n = 0
  · subst hn
    rfl
  · obtain ⟨d, ds, e, hd⟩ := toDigits_head hn
    rw [none, append_nil] at all
    rw [e] at all ⊢
    rw [wholeDigits]
    · exact all
    · intro _ e'
      exact hd (cons.inj e').1

theorem scanUnsigned_toDigits : scanUnsigned false (Nat.toDigits 10 n ++ rest) =
    some (⟨false, true, ⟨n, 0⟩⟩, (Nat.toDigits 10 n).length) := by
  have fraction : fractionDigits? rest = some [] := by
    cases rest with
    | nil => rfl
    | cons c cs =>
      rw [fractionDigits?]
      intro _ e
      exact (closes_ne (hrest c rfl)).2.1 (cons.inj e).1
  have exponent : exponentDigits? rest = some [] := by
    cases rest with
    | nil => rfl
    | cons c cs =>
      obtain ⟨-, -, he, hE⟩ := closes_ne (hrest c rfl)
      simp [exponentDigits?, he, hE]
  simp [scanUnsigned, wholeDigits_toDigits n hrest, fraction, exponent, parse?_toDigits]

end

/-! ## Steps of the parser -/

section

variable {α : Type} {cs rest after : List Char}

/-- What a step of the parser gives, without the proof that the rest is shorter. -/
def Reads (r : Read α cs) (a : α) (rest : List Char) : Prop :=
  ∃ h, r = some (a, ⟨rest, h⟩)

theorem reads_string {units : List StringUnit} (h : skipSpace cs = '\x22' :: rest)
    (hs : scanString rest = some (units, after)) :
    Reads (parseValue cs) (.string (unitsText units)) after := by
  rw [parseValue]
  split
  · next h' => simp [h] at h'
  · next h' =>
    obtain ⟨rfl, rfl⟩ := cons.inj (h.symm.trans h')
    rw [if_pos (by decide)]
    split
    · next hs' => simp [hs] at hs'
    · next hs' =>
      obtain ⟨rfl, rfl⟩ := Prod.mk.inj (Option.some.inj (hs.symm.trans hs'))
      exact ⟨_, rfl⟩

theorem reads_scalar {c : Char} {value : Json} {taken : Nat} (h : skipSpace cs = c :: rest)
    (hc : c ≠ '\x22' ∧ c ≠ '[' ∧ c ≠ '\x7b') (hs : scanScalar c rest = some (value, taken)) :
    Reads (parseValue cs) value (rest.drop taken) := by
  obtain ⟨hq, ha, ho⟩ := hc
  rw [parseValue]
  split
  · next h' => simp [h] at h'
  · next h' =>
    obtain ⟨rfl, rfl⟩ := cons.inj (h.symm.trans h')
    simp only [beq_iff_eq, hq, ha, ho, hs]
    exact ⟨_, rfl⟩

/-- An array: its end right behind the bracket, or items. -/
theorem reads_array {items : List Json} (h : skipSpace cs = '[' :: rest)
    (hr : (skipSpace rest = ']' :: after ∧ items = []) ∨
      (∀ after, skipSpace rest ≠ ']' :: after) ∧ Reads (parseItems rest) items after) :
    Reads (parseValue cs) (.array items) after := by
  rw [parseValue]
  split
  · next h' => simp [h] at h'
  · next h' =>
    obtain ⟨rfl, rfl⟩ := cons.inj (h.symm.trans h')
    rw [if_neg (by decide), if_pos (by decide)]
    rcases hr with ⟨hr, rfl⟩ | ⟨hne, lt, hi⟩
    · split
      · next hr' =>
        obtain ⟨-, rfl⟩ := cons.inj (hr.symm.trans hr')
        exact ⟨_, rfl⟩
      · next hr' => exact absurd hr (hr' _)
    · split
      · next hr' => exact absurd hr' (hne _)
      · simp only [hi]
        exact ⟨_, rfl⟩

/-- An object: its end right behind the brace, or fields. -/
theorem reads_object {fields : List (Option String × Json)} (h : skipSpace cs = '\x7b' :: rest)
    (hr : (skipSpace rest = '\x7d' :: after ∧ fields = []) ∨
      (∀ after, skipSpace rest ≠ '\x7d' :: after) ∧ Reads (parseFields rest) fields after) :
    Reads (parseValue cs) (.object fields) after := by
  rw [parseValue]
  split
  · next h' => simp [h] at h'
  · next h' =>
    obtain ⟨rfl, rfl⟩ := cons.inj (h.symm.trans h')
    rw [if_neg (by decide), if_neg (by decide), if_pos (by decide)]
    rcases hr with ⟨hr, rfl⟩ | ⟨hne, lt, hf⟩
    · split
      · next hr' =>
        obtain ⟨-, rfl⟩ := cons.inj (hr.symm.trans hr')
        exact ⟨_, rfl⟩
      · next hr' => exact absurd hr (hr' _)
    · split
      · next hr' => exact absurd hr' (hne _)
      · simp only [hf]
        exact ⟨_, rfl⟩

/-- An item, and the end of the array or what is read behind a comma. -/
theorem reads_items {item : Json} {items : List Json} (h : Reads (parseValue cs) item rest)
    (hr : (skipSpace rest = ']' :: after ∧ items = []) ∨
      ∃ next, skipSpace rest = ',' :: next ∧ Reads (parseItems next) items after) :
    Reads (parseItems cs) (item :: items) after := by
  obtain ⟨lt, h⟩ := h
  rw [parseItems]
  simp only [h]
  rcases hr with ⟨hr, rfl⟩ | ⟨next, hr, lt', hi⟩
  · split
    · next hr' =>
      obtain ⟨-, rfl⟩ := cons.inj (hr.symm.trans hr')
      exact ⟨_, rfl⟩
    · next hr' => simp [hr] at hr'
    · next hr' _ => exact absurd hr (hr' _)
  · split
    · next hr' => simp [hr] at hr'
    · next hr' =>
      obtain ⟨-, rfl⟩ := cons.inj (hr.symm.trans hr')
      simp only [hi]
      exact ⟨_, rfl⟩
    · next hr' => exact absurd hr (hr' _)

/-- The key of a field, up to the colon behind it. -/
def ReadsKey (cs : List Char) (key : Option String) (rest : List Char) : Prop :=
  ∃ start units afterKey, skipSpace cs = '\x22' :: start ∧
    scanString start = some (units, afterKey) ∧ unitsText units = key ∧
    skipSpace afterKey = ':' :: rest

/-- A field, and the end of the object or what is read behind a comma. -/
theorem reads_fields {key : Option String} {value : Json} {inner : List Char}
    {fields : List (Option String × Json)} (hk : ReadsKey cs key inner)
    (hv : Reads (parseValue inner) value rest)
    (hr : (skipSpace rest = '\x7d' :: after ∧ fields = []) ∨
      ∃ next, skipSpace rest = ',' :: next ∧ Reads (parseFields next) fields after) :
    Reads (parseFields cs) ((key, value) :: fields) after := by
  obtain ⟨start, units, afterKey, h, hs, rfl, hc⟩ := hk
  obtain ⟨lt, hv⟩ := hv
  rw [parseFields]
  split
  case h_2 h' => exact absurd h (h' _)
  case h_1 h' =>
    obtain ⟨-, rfl⟩ := cons.inj (h.symm.trans h')
    split
    case h_1 hs' => simp [hs] at hs'
    case h_2 hs' =>
      obtain ⟨rfl, rfl⟩ := Prod.mk.inj (Option.some.inj (hs.symm.trans hs'))
      split
      case h_2 hc' => exact absurd hc (hc' _)
      case h_1 hc' =>
        obtain ⟨-, rfl⟩ := cons.inj (hc.symm.trans hc')
        simp only [hv]
        rcases hr with ⟨hr, rfl⟩ | ⟨next, hr, lt', hf⟩
        · split
          · next hr' =>
            obtain ⟨-, rfl⟩ := cons.inj (hr.symm.trans hr')
            exact ⟨_, rfl⟩
          · next hr' => simp [hr] at hr'
          · next hr' _ => exact absurd hr (hr' _)
        · split
          · next hr' => simp [hr] at hr'
          · next hr' =>
            obtain ⟨-, rfl⟩ := cons.inj (hr.symm.trans hr')
            simp only [hf]
            exact ⟨_, rfl⟩
          · next hr' => exact absurd hr (hr' _)

end

/-! ## Texts that spell a value -/

/-- Characters that may stand between tokens. -/
abbrev Space : Type := { cs : List Char // ∀ c ∈ cs, isSpace c = true }

def Space.none : Space :=
  ⟨[], by simp⟩

theorem skipSpace_append (w : Space) (cs : List Char) : skipSpace (w.1 ++ cs) = skipSpace cs :=
  dropWhile_append_of_pos w.2

theorem skipSpace_cons (h : isSpace c = false) (cs : List Char) :
    skipSpace (c :: cs) = c :: cs := by
  rw [skipSpace, dropWhile_cons, h]
  rfl

theorem ends_append (w : Space) (h : closes c = true) (rest : List Char) :
    Ends (w.1 ++ c :: rest) := by
  obtain ⟨cs, hw⟩ := w
  cases cs with
  | nil => exact fun d hd => Option.some.inj hd ▸ h
  | cons d cs =>
    intro d' hd
    rw [← Option.some.inj hd, closes, hw d mem_cons_self]
    rfl

/-- The space inside an array or an object: before the first item, behind a comma, behind a colon
and after the last item. -/
structure Spacing where
  first : Space
  comma : Space
  colon : Space
  last : Space

/-- The texts of items or fields between brackets. -/
def Spacing.listText (s : Spacing) (opening closing : Char) (texts : List (List Char)) :
    List Char :=
  opening :: (s.first.1 ++ (joinItems s.comma.1 texts ++ (s.last.1 ++ [closing])))

/-- A field with its key. -/
def Spacing.fieldText (s : Spacing) (key : String) (value : List Char) : List Char :=
  quote (some key) ++ ':' :: (s.colon.1 ++ value)

/-- The texts that stand for a value of texts and whole numbers, with any space between tokens. -/
inductive Spells : List Char → Json → Prop
  | null : Spells ['n', 'u', 'l', 'l'] .null
  | yes : Spells ['t', 'r', 'u', 'e'] (.bool true)
  | no : Spells ['f', 'a', 'l', 's', 'e'] (.bool false)
  | natural (n : Nat) : Spells (Nat.toDigits 10 n) (.ofNat n)
  | string (s : String) : Spells (quote (some s)) (.ofString s)
  | array (s : Spacing) (items : List (List Char × Json)) (h : ∀ i ∈ items, Spells i.1 i.2) :
    Spells (s.listText '[' ']' (items.map (·.1))) (.array (items.map (·.2)))
  | object (s : Spacing) (fields : List (String × List Char × Json))
      (h : ∀ f ∈ fields, Spells f.2.1 f.2.2) :
    Spells (s.listText '\x7b' '\x7d' (fields.map fun f => s.fieldText f.1 f.2.1))
      (.ofFields (fields.map fun f => (f.1, f.2.2)))

/-- A value starts with a character of its own. -/
theorem Spells.head (h : Spells cs j) : ∃ c rest, cs = c :: rest ∧ isSpace c = false ∧ c ≠ ']' := by
  cases h with
  | natural n =>
    obtain ⟨d, ds, e, ne⟩ := toDigits_start n
    exact ⟨d, ds, e, by simp [isSpace, ne], ne rfl⟩
  | _ => exact ⟨_, _, rfl, by decide, by decide⟩

/-! ## Reading what a text spells -/

/-- The parser reads the value behind any space and before any rest that does not prolong it. -/
def Readable (cs : List Char) (j : Json) : Prop :=
  ∀ (w : Space) (rest : List Char), Ends rest → Reads (parseValue (w.1 ++ (cs ++ rest))) j rest

theorem readable_scalar {c : Char} {cs : List Char} {j : Json}
    (hc : isSpace c = false ∧ c ≠ '\x22' ∧ c ≠ '[' ∧ c ≠ '\x7b')
    (h : ∀ rest, Ends rest → scanScalar c (cs ++ rest) = some (j, cs.length)) :
    Readable (c :: cs) j := by
  intro w rest hrest
  have start : skipSpace (w.1 ++ (c :: cs ++ rest)) = c :: (cs ++ rest) := by
    rw [skipSpace_append, cons_append, skipSpace_cons hc.1]
  have reads := reads_scalar start hc.2 (h rest hrest)
  rwa [drop_left] at reads

theorem word?_append {word : String} (h : word.toList = cs) (value : Json) (rest : List Char) :
    word? word value (cs ++ rest) = some (value, cs.length) := by
  subst h
  simp [word?, ← String.length_toList]

theorem readable_natural (n : Nat) : Readable (Nat.toDigits 10 n) (.ofNat n) := by
  obtain ⟨d, ds, e, ne⟩ := toDigits_start n
  rw [e]
  refine readable_scalar ⟨?_, ne rfl, ne rfl, ne rfl⟩ fun rest hrest => ?_
  · simp [isSpace, ne]
  · have scanned := scanUnsigned_toDigits n hrest
    rw [e, cons_append] at scanned
    simp [scanScalar, scanNumber, ne, scanned, ofNat]

theorem skipSpace_quote (w : Space) (s : String) (rest : List Char) :
    skipSpace (w.1 ++ (quote (some s) ++ rest)) =
      '\x22' :: (s.toList.flatMap escapeChar ++ '\x22' :: rest) := by
  rw [skipSpace_append, quote, cons_append, skipSpace_cons (by decide)]
  simp

theorem readable_string (s : String) : Readable (quote (some s)) (.ofString s) := by
  intro w rest _
  obtain ⟨units, scanned, joined⟩ := scanString_flatMap s.toList rest
  have reads := reads_string (skipSpace_quote w s rest) scanned
  rwa [unitsText, joined, Option.map_some, String.ofList_toList] at reads

theorem readsKey_quote (w : Space) (key : String) (rest : List Char) :
    ReadsKey (w.1 ++ (quote (some key) ++ ':' :: rest)) (some key) rest := by
  obtain ⟨units, scanned, joined⟩ := scanString_flatMap key.toList (':' :: rest)
  refine ⟨_, units, _, skipSpace_quote w key _, scanned, ?_, skipSpace_cons (by decide) _⟩
  rw [unitsText, joined, Option.map_some, String.ofList_toList]

theorem joinItems_append (gap item : List Char) {items : List (List Char)} (h : items ≠ [])
    (rest : List Char) : joinItems gap (item :: items) ++ rest =
      item ++ ',' :: (gap ++ (joinItems gap items ++ rest)) := by
  simp [joinItems]

section

variable {α β : Type} {text : α → List Char} {value : α → β} {close : Char}
  {parse : (cs : List Char) → Read (List β) cs}

/-- The parser reads an item, and the end or what is read behind a comma. -/
def Step (parse : (cs : List Char) → Read (List β) cs) (close : Char) (item : List Char)
    (value : β) : Prop :=
  ∀ (w : Space) {rest after : List Char} {others : List β}, Ends rest →
    ((skipSpace rest = close :: after ∧ others = []) ∨
      ∃ next, skipSpace rest = ',' :: next ∧ Reads (parse next) others after) →
    Reads (parse (w.1 ++ (item ++ rest))) (value :: others) after

/-- The items of an array, and the fields of an object, are read one after the other. -/
theorem reads_joinItems (hclose : closes close = true ∧ isSpace close = false) (comma last : Space)
    {x : α} {xs : List α} (h : ∀ y ∈ x :: xs, Step parse close (text y) (value y)) (w : Space)
    (rest : List Char) :
    Reads (parse (w.1 ++ (joinItems comma.1 ((x :: xs).map text) ++ (last.1 ++ close :: rest))))
      ((x :: xs).map value) rest := by
  -- what stands behind an item is space, a comma or the bracket, so no item runs on into the next
  induction xs generalizing x w with
  | nil =>
    refine h x mem_cons_self w (ends_append last hclose.1 rest) (.inl ⟨?_, rfl⟩)
    rw [skipSpace_append, skipSpace_cons hclose.2]
  | cons y ys ih =>
    obtain ⟨first, others⟩ := forall_mem_cons.1 h
    rw [map_cons, joinItems_append _ _ (by simp)]
    refine first w (ends_append .none (by decide) _) (.inr ⟨_, ?_, ih others comma⟩)
    exact skipSpace_cons (by decide) _

end

section

variable (s : Spacing) (w : Space) {opening closing : Char} (rest : List Char)

theorem skipSpace_listText (h : isSpace opening = false) (closing : Char)
    (texts : List (List Char)) : skipSpace (w.1 ++ (s.listText opening closing texts ++ rest)) =
      opening :: (s.first.1 ++ (joinItems s.comma.1 texts ++ (s.last.1 ++ closing :: rest))) := by
  rw [skipSpace_append, Spacing.listText, cons_append, skipSpace_cons h]
  simp

/-- The first character of an item is what the parser sees behind the opening bracket. -/
theorem skipSpace_joinItems {d : Char} (hd : isSpace d = false) (gap cs : List Char)
    (items : List (List Char)) : ∃ behind,
    skipSpace (w.1 ++ (joinItems gap ((d :: cs) :: items) ++ rest)) = d :: behind := by
  rw [skipSpace_append]
  cases items with
  | nil => exact ⟨_, skipSpace_cons hd _⟩
  | cons next items => exact ⟨_, skipSpace_cons hd _⟩

theorem skipSpace_nothing (h : isSpace closing = false) :
    skipSpace (s.first.1 ++ (joinItems s.comma.1 [] ++ (s.last.1 ++ closing :: rest))) =
      closing :: rest := by
  rw [joinItems, nil_append, skipSpace_append, skipSpace_append, skipSpace_cons h]

end

section

variable (s : Spacing)

theorem readable_array {items : List (List Char × Json)} (hs : ∀ i ∈ items, Spells i.1 i.2)
    (h : ∀ i ∈ items, Readable i.1 i.2) :
    Readable (s.listText '[' ']' (items.map (·.1))) (.array (items.map (·.2))) := by
  intro w rest _
  have opened := skipSpace_listText s w rest (show isSpace '[' = false by decide) ']'
    (items.map (·.1))
  cases items with
  | nil => exact reads_array opened (.inl ⟨skipSpace_nothing s rest (by decide), rfl⟩)
  | cons i items =>
    refine reads_array opened
      (.inr ⟨?_, reads_joinItems (by decide) s.comma s.last ?_ s.first rest⟩)
    · -- the array is not taken for an empty one: no value starts with its bracket
      intro after e
      obtain ⟨c, cs, head, hc, hne⟩ := (hs i mem_cons_self).head
      rw [map_cons, head] at e
      obtain ⟨behind, first⟩ := skipSpace_joinItems s.first _ hc s.comma.1 cs _
      exact hne (cons.inj (first.symm.trans e)).1
    · intro i' hi' w' rest' after others hrest hr
      exact reads_items (h i' hi' w' rest' hrest) hr

theorem readable_object {fields : List (String × List Char × Json)}
    (h : ∀ f ∈ fields, Readable f.2.1 f.2.2) :
    Readable (s.listText '\x7b' '\x7d' (fields.map fun f => s.fieldText f.1 f.2.1))
      (.ofFields (fields.map fun f => (f.1, f.2.2))) := by
  intro w rest _
  have opened := skipSpace_listText s w rest (show isSpace '\x7b' = false by decide) '\x7d'
    (fields.map fun f => s.fieldText f.1 f.2.1)
  rw [ofFields, map_map]
  cases fields with
  | nil => exact reads_object opened (.inl ⟨skipSpace_nothing s rest (by decide), rfl⟩)
  | cons f fields =>
    refine reads_object opened
      (.inr ⟨?_, reads_joinItems (by decide) s.comma s.last ?_ s.first rest⟩)
    · intro after e
      obtain ⟨behind, first⟩ :=
        skipSpace_joinItems (d := '\x22') s.first _ (by decide) s.comma.1 _ _
      exact absurd (cons.inj (first.symm.trans e)).1 (by decide)
    · intro f' hf' w' rest' after others hrest hr
      rw [Spacing.fieldText, append_assoc, cons_append, append_assoc]
      exact reads_fields (readsKey_quote w' f'.1 _) (h f' hf' s.colon rest' hrest) hr

end

/-- The parser reads whatever a text spells. -/
theorem readable_of_spells (h : Spells cs j) : Readable cs j := by
  induction h with
  | null =>
    have word : "ull".toList = ['u', 'l', 'l'] := by simp
    exact readable_scalar (by decide) fun rest _ => word?_append word .null rest
  | yes =>
    have word : "rue".toList = ['r', 'u', 'e'] := by simp
    exact readable_scalar (by decide) fun rest _ => word?_append word (.bool true) rest
  | no =>
    have word : "alse".toList = ['a', 'l', 's', 'e'] := by simp
    exact readable_scalar (by decide) fun rest _ => word?_append word (.bool false) rest
  | natural n => exact readable_natural n
  | string s => exact readable_string s
  | array s items h ih => exact readable_array s h ih
  | object s fields _ ih => exact readable_object s ih

theorem parse?_of_spells (h : Spells cs j) : parse? (String.ofList cs) = some j := by
  have reads : Reads (parseValue ([] ++ (cs ++ []))) j [] :=
    readable_of_spells h .none [] (by simp [Ends])
  have text : [] ++ (cs ++ []) = (String.ofList cs).toList := by simp
  rw [text] at reads
  obtain ⟨lt, e⟩ := reads
  simp [parse?, e, skipSpace]

/-! ## Printing -/

/-- Values with texts that can be written and with whole numbers only. -/
inductive Plain : Json → Prop
  | null : Plain .null
  | bool (b : Bool) : Plain (.bool b)
  | natural (n : Nat) : Plain (.ofNat n)
  | string (s : String) : Plain (.ofString s)
  | array {items : List Json} (h : ∀ j ∈ items, Plain j) : Plain (.array items)
  | object {fields : List (String × Json)} (h : ∀ f ∈ fields, Plain f.2) : Plain (.ofFields fields)

theorem compactItems_eq (items : List Json) : compactItems items = items.map compact := by
  induction items with
  | nil => rfl
  | cons item items ih => rw [compactItems, ih, map_cons]

theorem compactFields_eq (fields : List (Option String × Json)) :
    compactFields fields = fields.map fun f => quote f.1 ++ ':' :: compact f.2 := by
  induction fields with
  | nil => rfl
  | cons f fields ih => rw [compactFields, ih, map_cons]

theorem prettyItems_eq (depth : Nat) (items : List Json) :
    prettyItems depth items = items.map (prettyAt depth) := by
  induction items with
  | nil => rfl
  | cons item items ih => rw [prettyItems, ih, map_cons]

theorem prettyFields_eq (depth : Nat) (fields : List (Option String × Json)) :
    prettyFields depth fields =
      fields.map fun f => quote f.1 ++ ':' :: ' ' :: prettyAt depth f.2 := by
  induction fields with
  | nil => rfl
  | cons f fields ih => rw [prettyFields, ih, map_cons]

/-- No space at all. -/
def Spacing.dense : Spacing :=
  ⟨.none, .none, .none, .none⟩

theorem isSpace_newLine (depth : Nat) : ∀ c ∈ newLine depth, isSpace c = true := by
  simp [newLine, isSpace]

/-- A line for each item, one step further in than the brackets. -/
def Spacing.lines (depth : Nat) : Spacing where
  first := ⟨newLine (depth + 1), isSpace_newLine _⟩
  comma := ⟨newLine (depth + 1), isSpace_newLine _⟩
  colon := ⟨[' '], by simp [isSpace]⟩
  last := ⟨newLine depth, isSpace_newLine _⟩

theorem printNumber_ofNat (n : Nat) : printNumber ⟨false, true, ⟨n, 0⟩⟩ = Nat.toDigits 10 n := by
  simp [printNumber]

theorem spells_compact (h : Plain j) : Spells (compact j) j := by
  induction h with
  | null => exact .null
  | bool b =>
    cases b with
    | false => exact .no
    | true => exact .yes
  | natural n =>
    rw [ofNat, compact, printNumber_ofNat]
    exact .natural n
  | string s => exact .string s
  | @array items _ ih =>
    have spelled := Spells.array .dense (items.map fun j => (compact j, j))
      (forall_mem_map.2 ih)
    simpa [compact, compactItems_eq, Spacing.listText, Spacing.dense, Space.none,
      Function.comp_def] using spelled
  | @object fields _ ih =>
    have spelled := Spells.object .dense (fields.map fun f => (f.1, compact f.2, f.2))
      (forall_mem_map.2 ih)
    simpa [compact, ofFields, compactFields_eq, Spacing.listText, Spacing.fieldText, Spacing.dense,
      Space.none, Function.comp_def] using spelled

theorem spells_prettyAt (h : Plain j) (depth : Nat) : Spells (prettyAt depth j) j := by
  induction h generalizing depth with
  | null => exact .null
  | bool b =>
    cases b with
    | false => exact .no
    | true => exact .yes
  | natural n =>
    rw [ofNat, prettyAt, printNumber_ofNat]
    exact .natural n
  | string s => exact .string s
  | @array items _ ih =>
    cases items with
    | nil => exact .array .dense [] (by simp)
    | cons item items =>
      have spelled := Spells.array (.lines depth)
        ((item :: items).map fun j => (prettyAt (depth + 1) j, j))
        (forall_mem_map.2 fun j hj => ih j hj (depth + 1))
      simpa [prettyAt, prettyItems_eq, Spacing.listText, Spacing.lines, Function.comp_def]
        using spelled
  | @object fields _ ih =>
    cases fields with
    | nil => exact .object .dense [] (by simp)
    | cons f fields =>
      have spelled := Spells.object (.lines depth)
        ((f :: fields).map fun f => (f.1, prettyAt (depth + 1) f.2, f.2))
        (forall_mem_map.2 fun f hf => ih f hf (depth + 1))
      simpa [prettyAt, ofFields, prettyFields_eq, Spacing.listText, Spacing.fieldText,
        Spacing.lines, Function.comp_def] using spelled

/-- What is printed on one line is read back. -/
theorem parse?_toCompact (h : Plain j) : parse? j.toCompact = some j :=
  parse?_of_spells (spells_compact h)

/-- What is printed over several lines is read back. -/
theorem parse?_toPretty (h : Plain j) : parse? j.toPretty = some j :=
  parse?_of_spells (spells_prettyAt h 0)

end ModCheck.Json
