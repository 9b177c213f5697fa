import Mathlib.Data.List.Basic
import Mathlib.Data.List.TakeWhile
import ModCheck.Token.Scanner

/-
  The splitters of the scanner. Each cuts a text where it first has to stop, and where it stops is
  decided by the characters right there: a text that is cut off whole is cut off whole again
  when other text follows, as long as the splitter stops where that text starts. For values this
  takes in the look-ahead to `name =`, which never reaches past the place where a value can end.
-/

namespace ModCheck

open List
open Text (isAlphabetic isBlank isNumeric whiteSpace)

variable {a c : Char} {cs ds : List Char}

/-! ## Character classes -/

/-- The code points with the property White_Space, one by one. -/
def blankCodes : List Nat :=
  [0x9, 0xA, 0xB, 0xC, 0xD, 0x20, 0x85, 0xA0, 0x1680, 0x2000, 0x2001, 0x2002, 0x2003, 0x2004,
   0x2005, 0x2006, 0x2007, 0x2008, 0x2009, 0x200A, 0x2028, 0x2029, 0x202F, 0x205F, 0x3000]

theorem mem_blankCodes (h : isBlank c = true) : c.toNat ∈ blankCodes := by
  simp only [isBlank, whiteSpace, Text.RunTable.contains, Text.RunTable.containsFrom,
    Bool.and_eq_true, Bool.or_eq_true, decide_eq_true_eq, Bool.false_eq_true, or_false] at h
  simp only [blankCodes, mem_cons]
  omega

theorem not_isWordChar_of_isBlank (h : isBlank c = true) : Token.isWordChar c = false := by
  have codes : ∀ n ∈ blankCodes, Text.alphabetic.containsFrom 0 n = false ∧
      Text.decimalDigit.containsFrom 0 n = false ∧ Text.otherNumber.containsFrom 0 n = false ∧
      n ≠ '_'.toNat ∧ n ≠ '.'.toNat := by decide +kernel
  obtain ⟨ha, hd, ho, hu, hp⟩ := codes _ (mem_blankCodes h)
  have hu' : c ≠ '_' := fun e => hu (e ▸ rfl)
  have hp' : c ≠ '.' := fun e => hp (e ▸ rfl)
  simp [Token.isWordChar, isAlphabetic, isNumeric, Text.RunTable.contains, ha, hd, ho, hu', hp']

theorem not_isWordStart_of_isBlank (h : isBlank c = true) : Token.isWordStart c = false := by
  have hw := not_isWordChar_of_isBlank h
  have hb : c ≠ '!' := fun e => by
    rw [e] at h
    exact absurd h (by decide)
  simp only [Token.isWordChar, Bool.or_eq_false_iff] at hw
  simp [Token.isWordStart, hw.1.1.1, hw.1.2, hb]

/-- The signs of the language, none of which is part of a name. -/
theorem isWordChar_eq_false (h : c ∈ [';', '[', ']', '=', '-', '\n', '\r']) :
    Token.isWordChar c = false := by
  have signs : [';', '[', ']', '=', '-', '\n', '\r'].all (!Token.isWordChar ·) = true := by decide
  simpa using all_eq_true.1 signs c h

theorem isWordStart_eq_false (h : c ∈ [';', '[', ']', '=', '-', '\n', '\r']) :
    Token.isWordStart c = false := by
  have signs : [';', '[', ']', '=', '-', '\n', '\r'].all (!Token.isWordStart ·) = true := by decide
  simpa using all_eq_true.1 signs c h

/-- No name starts with a sign. -/
theorem ne_of_isWordStart (h : Token.isWordStart c = true) :
    ∀ d ∈ [';', '[', ']', '=', '-', '\n', '\r'], c ≠ d := by
  rintro d hd rfl
  rw [isWordStart_eq_false hd] at h
  exact absurd h (by decide)

theorem isBlank_of_isGap (h : isGap c cs = true) : isBlank c = true := by
  simp only [isGap, isLineBlank, Bool.or_eq_true, Bool.and_eq_true, beq_iff_eq] at h
  rcases h with ⟨⟨h, -⟩, -⟩ | ⟨rfl, -⟩
  · exact h
  · decide

theorem isGap_ne (h : isGap c cs = true) : c ≠ ';' ∧ c ≠ '[' ∧ c ≠ '\n' := by
  have hb := isBlank_of_isGap h
  refine ⟨?_, ?_, ?_⟩
  · rintro rfl
    exact absurd hb (by decide)
  · rintro rfl
    exact absurd hb (by decide)
  · rintro rfl
    simp [isGap, isLineBlank] at h

/-- A blank is part of a gap unless it starts a line break. -/
theorem isGap_or_isLineEnd (cs : List Char) (h : isBlank c = true) :
    isGap c cs = true ∨ isLineEnd c cs = true := by
  by_cases hn : c = '\n'
  · exact Or.inr (by simp [isLineEnd, hn])
  by_cases hr : c = '\r'
  · by_cases hh : cs.head? = some '\n'
    · exact Or.inr (by simp [isLineEnd, hr, hh])
    · exact Or.inl (by simp [isGap, hr, hh])
  · exact Or.inl (by simp [isGap, isLineBlank, h, hn, hr])

theorem isGap_eq_false_of_isLineEnd (h : isLineEnd c cs = true) : isGap c cs = false := by
  simp only [isLineEnd, Bool.or_eq_true, Bool.and_eq_true, beq_iff_eq] at h
  rcases h with rfl | ⟨rfl, h⟩
  · simp [isGap, isLineBlank]
  · simp [isGap, isLineBlank, h]

/-! ## Splitting a text that goes on

  A splitter that has reached the end of a text stops at the same place when more text follows,
  provided that it would stop at the start of what follows. A carriage return before a line feed
  and a hyphen before a hyphen are the two pairs that must not arise at the seam. -/

theorem isLineEnd_append (h : cs = [] → c = '\r' → ds.head? ≠ some '\n') :
    isLineEnd c (cs ++ ds) = isLineEnd c cs := by
  unfold isLineEnd
  by_cases hcs : cs = []
  · by_cases hc : c = '\r'
    · simp [hc, h hcs hc]
    · simp [show (c == '\r') = false by simpa using hc]
  · rw [head?_append_of_ne_nil _ hcs]

theorem isGap_append (h : cs = [] → c = '\r' → ds.head? ≠ some '\n') :
    isGap c (cs ++ ds) = isGap c cs := by
  unfold isGap
  by_cases hcs : cs = []
  · by_cases hc : c = '\r'
    · simp [hcs, hc, bne_iff_ne.2 (h hcs hc)]
    · simp [show (c == '\r') = false by simpa using hc]
  · rw [head?_append_of_ne_nil _ hcs]

/-- The seam condition of a list, for its tail and for its only character. -/
theorem seam_cons {b : Char} (h : (c :: cs).getLast? = some a → ds.head? ≠ some b) :
    (cs.getLast? = some a → ds.head? ≠ some b) ∧ (cs = [] → c = a → ds.head? ≠ some b) := by
  refine ⟨fun e => h ?_, ?_⟩
  · rw [getLast?_cons, e]
    rfl
  · rintro rfl rfl
    exact h rfl

theorem splitGap_append_iff (gap text rest : List Char) (ht : text ≠ [])
    (hr : text ≠ ['\r']) :
    splitGap (gap ++ (text ++ rest)) = (gap, text ++ rest) ↔
      splitGap (gap ++ text) = (gap, text) := by
  induction gap with
  | nil =>
    obtain ⟨c, cs, rfl⟩ := exists_cons_of_ne_nil ht
    have e : isGap c (cs ++ rest) = isGap c cs :=
      isGap_append fun hcs hc => absurd (by rw [hcs, hc]) hr
    simp only [nil_append, cons_append, splitGap, e]
    split <;> simp
  | cons g gap ih =>
    have e : isGap g (gap ++ text ++ rest) = isGap g (gap ++ text) :=
      isGap_append fun h => absurd (append_eq_nil_iff.1 h).2 ht
    simp only [cons_append, splitGap, ← append_assoc, e]
    split
    · rw [← append_assoc] at ih
      simpa [Prod.ext_iff] using ih
    · simp

theorem splitGap_snd_ne_return (cs : List Char) : (splitGap cs).2 ≠ ['\r'] := by
  induction cs with
  | nil => simp [splitGap]
  | cons c cs ih =>
    rw [splitGap]
    split
    · exact ih
    · next h =>
      rintro e
      obtain ⟨rfl, rfl⟩ := cons_eq_cons.1 e
      exact h (by decide)

theorem splitGap_append_right (h : (splitGap cs).2 ≠ []) :
    splitGap (cs ++ ds) = ((splitGap cs).1, (splitGap cs).2 ++ ds) := by
  have e := (splitGap_append_iff (splitGap cs).1 _ ds h (splitGap_snd_ne_return cs)).2
    (by rw [splitGap_append])
  rwa [← append_assoc, splitGap_append] at e

/-! ## Splitters that look one character ahead -/

/-- Splits a text before the first character that `q` stops at, given the character after it. -/
def splitWhere (q : Char → Option Char → Bool) : List Char → List Char × List Char
  | [] => ([], [])
  | c :: cs =>
    if q c cs.head? then ([], c :: cs) else (c :: (splitWhere q cs).1, (splitWhere q cs).2)

/-- Where a line ends. -/
def endsLine (c : Char) (next : Option Char) : Bool :=
  c == '\n' || (c == '\r' && next == some '\n')

/-- Where a bare word ends. -/
def endsWord (c : Char) (next : Option Char) : Bool :=
  isDelimiter c || (c == '-' && next == some '-')

theorem splitLine_eq (cs : List Char) : splitLine cs = splitWhere endsLine cs := by
  induction cs with
  | nil => rfl
  | cons c cs ih =>
    rw [splitLine, ih]
    rfl

theorem splitWord_eq (cs : List Char) : splitWord cs = splitWhere endsWord cs := by
  induction cs with
  | nil => rfl
  | cons c cs ih =>
    rw [splitWord, ih]
    rfl

section

variable {q : Char → Option Char → Bool}

theorem splitWhere_of_stop (h : (splitWhere q cs).1 = []) : splitWhere q cs = ([], cs) := by
  cases cs with
  | nil => rfl
  | cons c cs =>
    rw [splitWhere] at h ⊢
    split at h
    · next hc => rw [if_pos hc]
    · simp at h

/-- What is left starts where the splitter stops. -/
theorem splitWhere_stop (cs : List Char) : (splitWhere q (splitWhere q cs).2).1 = [] := by
  induction cs with
  | nil => rfl
  | cons c cs ih =>
    rw [splitWhere]
    split
    · next h => rw [splitWhere, if_pos h]
    · exact ih

/-- The splitter does not stop at the last character that it cuts off. -/
theorem splitWhere_seam (h : (splitWhere q cs).1.getLast? = some a) :
    q a (splitWhere q cs).2.head? = false := by
  induction cs with
  | nil => simp [splitWhere] at h
  | cons c cs ih =>
    rw [splitWhere] at h ⊢
    split at h
    · simp at h
    · next hc =>
      rw [if_neg hc]
      by_cases he : (splitWhere q cs).1 = []
      · have e : c = a := by simpa [he] using h
        rw [splitWhere_of_stop he, ← e]
        simpa using hc
      · exact ih (by rwa [getLast?_cons_of_ne_nil he] at h)

theorem splitWhere_append_stop (hd : (splitWhere q ds).1 = [])
    (h : ∀ a, cs.getLast? = some a → q a ds.head? = q a none) :
    splitWhere q (cs ++ ds) = ((splitWhere q cs).1, (splitWhere q cs).2 ++ ds) := by
  induction cs with
  | nil => exact splitWhere_of_stop hd
  | cons c cs ih =>
    have e : q c (cs ++ ds).head? = q c cs.head? := by
      cases cs with
      | nil => exact h c rfl
      | cons d cs => rfl
    have hcs : ∀ a, cs.getLast? = some a → q a ds.head? = q a none := fun a ha =>
      h a (by rw [getLast?_cons, ha]; rfl)
    rw [cons_append, splitWhere, splitWhere, e, ih hcs]
    split <;> rfl

theorem splitWhere_append_all (hcs : splitWhere q cs = (cs, []))
    (h : ∀ a, cs.getLast? = some a → q a ds.head? = q a none) :
    splitWhere q (cs ++ ds) = (cs ++ (splitWhere q ds).1, (splitWhere q ds).2) := by
  induction cs with
  | nil => rfl
  | cons c cs ih =>
    have e : q c (cs ++ ds).head? = q c cs.head? := by
      cases cs with
      | nil => exact h c rfl
      | cons d cs => rfl
    rw [splitWhere] at hcs
    split at hcs
    · simp at hcs
    · next hc =>
      obtain ⟨h1, h2⟩ := Prod.mk.inj hcs
      have htail := ih (Prod.ext (cons_eq_cons.1 h1).2 h2) fun a ha =>
        h a (by rw [getLast?_cons, ha]; rfl)
      rw [cons_append, splitWhere, e, if_neg hc, htail]
      rfl

/-- What is cut off is cut off whole when nothing follows, if the end of the text stops nothing
that a character after it would not stop. -/
theorem splitWhere_fst (hq : ∀ a next, q a none = true → q a next = true) (cs : List Char) :
    splitWhere q (splitWhere q cs).1 = ((splitWhere q cs).1, []) := by
  induction cs with
  | nil => rfl
  | cons c cs ih =>
    by_cases h : q c cs.head? = true
    · rw [splitWhere, if_pos h]
      rfl
    · have hc : ¬ q c (splitWhere q cs).1.head? = true := by
        cases cs with
        | nil => exact h
        | cons d ds =>
          rw [splitWhere]
          split
          · exact fun e => h (hq c _ e)
          · exact h
      rw [splitWhere, if_neg h, splitWhere, if_neg hc, ih]

end

theorem endsLine_none (next : Option Char) (h : endsLine a none = true) :
    endsLine a next = true := by
  simp_all [endsLine]

theorem endsWord_none (next : Option Char) (h : endsWord a none = true) :
    endsWord a next = true := by
  simp_all [endsWord]

/-- The seam after a line's text. -/
theorem endsLine_seam {next : Option Char} (h : a = '\r' → next ≠ some '\n') :
    endsLine a next = endsLine a none := by
  by_cases ha : a = '\r'
  · simp [endsLine, h ha]
  · simp [endsLine, show (a == '\r') = false by simpa using ha]

/-- The seam after a bare word. -/
theorem endsWord_seam {next : Option Char} (h : a = '-' → next ≠ some '-') :
    endsWord a next = endsWord a none := by
  by_cases ha : a = '-'
  · simp [endsWord, h ha]
  · simp [endsWord, show (a == '-') = false by simpa using ha]

/-! ## Where a value ends -/

theorem splitValue_nil_append (h : (splitValue cs).1 = []) : splitValue cs = ([], cs) := by
  have e := splitValue_append cs
  rw [h] at e
  exact Prod.ext h e

theorem splitLine_cons_eq_nil : (splitLine (c :: cs)).1 = [] ↔ isLineEnd c cs = true := by
  rw [splitLine]
  split <;> simp_all

theorem splitWord_cons_eq_nil :
    (splitWord (c :: cs)).1 = [] ↔ isDelimiter c = true ∨ c = '-' ∧ cs.head? = some '-' := by
  rw [splitWord]
  split <;> simp_all

theorem splitValue_cons_eq_nil :
    (splitValue (c :: cs)).1 = [] ↔
      c = ';' ∨ c = '[' ∨ isLineEnd c cs = true ∨
        isGap c cs = true ∧ (startsProperty (splitGap cs).2 = true ∨ (splitValue cs).1 = []) := by
  rw [splitValue]
  split
  · next h =>
    simp only [Bool.or_eq_true, beq_iff_eq] at h
    refine ⟨fun _ => ?_, fun _ => rfl⟩
    rcases h with (h | h) | h
    · exact Or.inl h
    · exact Or.inr (Or.inl h)
    · exact Or.inr (Or.inr (Or.inl h))
  · next h =>
    simp only [Bool.or_eq_true, beq_iff_eq, not_or] at h
    dsimp only
    split
    · next hg =>
      simp only [Bool.and_eq_true, Bool.or_eq_true, List.isEmpty_iff] at hg
      exact ⟨fun _ => Or.inr (Or.inr (Or.inr hg)), fun _ => rfl⟩
    · next hg =>
      simp only [Bool.and_eq_true, Bool.or_eq_true, List.isEmpty_iff] at hg
      simp only [reduceCtorEq, false_iff]
      rintro (e | e | e | e)
      · exact h.1.1 e
      · exact h.1.2 e
      · exact h.2 e
      · exact hg e

/-- A text of blanks only holds no value. -/
theorem splitValue_eq_nil_of_gap (h : (splitGap cs).2 = []) : (splitValue cs).1 = [] := by
  induction cs with
  | nil => rfl
  | cons c cs ih =>
    rw [splitGap] at h
    split at h
    · next hg => exact splitValue_cons_eq_nil.2 (Or.inr (Or.inr (Or.inr ⟨hg, Or.inr (ih h)⟩)))
    · simp at h

theorem head_not_isWordChar_of_stop (h : (splitValue (c :: cs)).1 = []) :
    Token.isWordChar c = false := by
  rcases splitValue_cons_eq_nil.1 h with rfl | rfl | hl | ⟨hg, -⟩
  · exact isWordChar_eq_false (by decide)
  · exact isWordChar_eq_false (by decide)
  · simp only [isLineEnd, Bool.or_eq_true, Bool.and_eq_true, beq_iff_eq] at hl
    rcases hl with rfl | ⟨rfl, -⟩
    · exact isWordChar_eq_false (by decide)
    · exact isWordChar_eq_false (by decide)
  · exact not_isWordChar_of_isBlank (isBlank_of_isGap hg)

theorem splitGap_of_equals (h : (cs.dropWhile isLineBlank).head? = some '=') :
    (splitGap cs).2 = cs.dropWhile isLineBlank := by
  induction cs with
  | nil => simp at h
  | cons c cs ih =>
    by_cases hc : isLineBlank c = true
    · rw [dropWhile_cons_of_pos hc] at h ⊢
      rw [splitGap, if_pos (by simp [isGap, hc])]
      exact ih h
    · rw [dropWhile_cons_of_neg hc] at h ⊢
      have e : c = '=' := by simpa using h
      rw [splitGap, if_neg (by rw [e]; simp [isGap]; decide)]

/-- No equals sign follows where a value ends. -/
theorem not_equals_of_stop (h : (splitValue cs).1 = []) :
    (cs.dropWhile isLineBlank).head? ≠ some '=' := by
  induction cs with
  | nil => simp
  | cons c cs ih =>
    intro he
    by_cases hc : isLineBlank c = true
    · rw [dropWhile_cons_of_pos hc] at he
      have hg : isGap c cs = true := by simp [isGap, hc]
      obtain ⟨hs, hb, hn⟩ := isGap_ne hg
      have hl : isLineEnd c cs = false := by
        by_contra hl
        rw [isGap_eq_false_of_isLineEnd (by simpa using hl)] at hg
        exact absurd hg (by decide)
      rcases splitValue_cons_eq_nil.1 h with e | e | e | ⟨-, e | e⟩
      · exact hs e
      · exact hb e
      · rw [hl] at e
        exact absurd e (by decide)
      · rw [splitGap_of_equals he] at e
        obtain ⟨d, ds, hd⟩ : ∃ d ds, cs.dropWhile isLineBlank = d :: ds :=
          exists_cons_of_ne_nil fun e => by simp [e] at he
        rw [hd] at he e
        have hq : d = '=' := by simpa using he
        rw [hq, startsProperty, isWordStart_eq_false (by decide), Bool.false_and] at e
        exact absurd e (by decide)
      · exact ih e he
    · rw [dropWhile_cons_of_neg hc] at he
      have e : c = '=' := by simpa using he
      subst e
      rcases splitValue_cons_eq_nil.1 h with e | e | e | ⟨e, -⟩
      · exact absurd e (by decide)
      · exact absurd e (by decide)
      · simp [isLineEnd] at e
      · exact absurd (isBlank_of_isGap e) (by decide)

/-- Whether a property starts is decided before the place where a value can end. -/
theorem startsProperty_append_stop (hcs : cs ≠ []) (hd : (splitValue ds).1 = []) :
    startsProperty (cs ++ ds) = startsProperty cs := by
  obtain ⟨c, cs, rfl⟩ := exists_cons_of_ne_nil hcs
  have hw : ds.dropWhile Token.isWordChar = ds := by
    cases ds with
    | nil => rfl
    | cons d ds => exact dropWhile_cons_of_neg (by simp [head_not_isWordChar_of_stop hd])
  have hq : ((ds.dropWhile isLineBlank).head? == some '=') = false := by
    simpa using not_equals_of_stop hd
  rw [cons_append, startsProperty, startsProperty, dropWhile_append]
  by_cases h1 : (cs.dropWhile Token.isWordChar).isEmpty = true
  · rw [if_pos h1, hw, hq, List.isEmpty_iff.1 h1]
    rfl
  · rw [if_neg h1, dropWhile_append]
    by_cases h2 : ((cs.dropWhile Token.isWordChar).dropWhile isLineBlank).isEmpty = true
    · rw [if_pos h2, hq, List.isEmpty_iff.1 h2]
      rfl
    · rw [if_neg h2, head?_append_of_ne_nil _ fun e => h2 (by rw [e]; rfl)]

theorem splitValue_append_stop (hd : (splitValue ds).1 = [])
    (h : cs.getLast? = some '\r' → ds.head? ≠ some '\n') :
    splitValue (cs ++ ds) = ((splitValue cs).1, (splitValue cs).2 ++ ds) := by
  induction cs with
  | nil => exact splitValue_nil_append hd
  | cons c cs ih =>
    obtain ⟨hcs, hc⟩ := seam_cons h
    have key : (startsProperty (splitGap (cs ++ ds)).2 || (splitValue cs).1.isEmpty) =
        (startsProperty (splitGap cs).2 || (splitValue cs).1.isEmpty) := by
      by_cases he : (splitValue cs).1 = []
      · simp [he]
      · have hg : (splitGap cs).2 ≠ [] := fun e => he (splitValue_eq_nil_of_gap e)
        rw [splitGap_append_right hg, startsProperty_append_stop hg hd]
    rw [cons_append, splitValue, splitValue, isLineEnd_append hc, isGap_append hc, ih hcs]
    dsimp only
    rw [key]
    split
    · rfl
    · split <;> rfl

/-! ## What the splitters cut off -/

theorem splitWord_not_isDelimiter (h : c ∈ (splitWord cs).1) : isDelimiter c = false := by
  induction cs with
  | nil => simp [splitWord] at h
  | cons d cs ih =>
    rw [splitWord] at h
    split at h
    · simp at h
    · next hd =>
      simp only [Bool.or_eq_true, not_or] at hd
      rcases mem_cons.1 h with rfl | h
      · simpa using hd.1
      · exact ih h

theorem splitValue_stop (cs : List Char) : (splitValue (splitValue cs).2).1 = [] := by
  induction cs with
  | nil => rfl
  | cons c cs ih =>
    by_cases h : (splitValue (c :: cs)).1 = []
    · rw [splitValue_nil_append h, splitValue_nil_append h]
    · have e : (splitValue (c :: cs)).2 = (splitValue cs).2 := by
        rw [splitValue] at h ⊢
        split at h
        · exact absurd rfl h
        · next hc =>
          rw [if_neg hc]
          dsimp only at h ⊢
          split at h
          · exact absurd rfl h
          · next hg => rw [if_neg hg]
      rw [e]
      exact ih

/-- The characters of a value: no line end, semicolon or bracket, and no blank at its end. -/
theorem splitValue_cons_of_ne_nil (h : (splitValue (c :: cs)).1 ≠ []) :
    splitValue (c :: cs) = (c :: (splitValue cs).1, (splitValue cs).2) ∧
      c ∉ [';', '[', '\n'] ∧ (isBlank c = true → (splitValue cs).1 ≠ []) := by
  have hn := mt splitValue_cons_eq_nil.2 h
  simp only [not_or, not_and] at hn
  obtain ⟨hs, hb, hl, hg⟩ := hn
  have hne : c ≠ '\n' := fun e => hl (by simp [isLineEnd, e])
  have hgap : isBlank c = true → isGap c cs = true := fun hc =>
    (isGap_or_isLineEnd cs hc).resolve_right hl
  refine ⟨?_, by simp [hs, hb, hne], fun hc => (hg (hgap hc)).2⟩
  rw [splitValue, if_neg (by simp [hs, hb, hl])]
  rw [if_neg]
  simp only [Bool.and_eq_true, Bool.or_eq_true, List.isEmpty_iff, not_and, not_or]
  exact hg

theorem splitValue_getLast_not_isBlank (h : (splitValue cs).1.getLast? = some c) :
    isBlank c = false := by
  induction cs with
  | nil => simp [splitValue] at h
  | cons d cs ih =>
    by_cases hd : (splitValue (d :: cs)).1 = []
    · simp [hd] at h
    · obtain ⟨e, -, hb⟩ := splitValue_cons_of_ne_nil hd
      rw [e] at h
      by_cases he : (splitValue cs).1 = []
      · have hc : d = c := by simpa [he] using h
        by_contra hcb
        exact hb (by rw [hc]; simpa using hcb) he
      · exact ih (by rwa [getLast?_cons_of_ne_nil he] at h)

theorem splitValue_not_mem (h : c ∈ (splitValue cs).1) : c ∉ [';', '[', '\n'] := by
  induction cs with
  | nil => simp [splitValue] at h
  | cons d cs ih =>
    by_cases hd : (splitValue (d :: cs)).1 = []
    · simp [hd] at h
    · obtain ⟨e, hm, -⟩ := splitValue_cons_of_ne_nil hd
      rw [e] at h
      rcases mem_cons.1 h with rfl | h
      · exact hm
      · exact ih h

theorem splitValue_seam (cs : List Char) : (splitValue cs).1.getLast? ≠ some '\r' := fun h =>
  absurd (splitValue_getLast_not_isBlank h) (by decide)

theorem splitValue_fst (cs : List Char) :
    splitValue (splitValue cs).1 = ((splitValue cs).1, []) := by
  have e := splitValue_append_stop (splitValue_stop cs)
    fun h => absurd h (splitValue_seam cs)
  rw [splitValue_append, Prod.ext_iff] at e
  exact Prod.ext e.1.symm (self_eq_append_left.1 e.2)

end ModCheck
