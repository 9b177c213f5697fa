import ModCheck.Proofs.FormulaLexing

/-
  Numbers in float fields and in formulas. A float field takes a numeral behind an optional sign,
  where digits of any script count: `isFloatText_iff` spells out its pattern. The scanner of
  formulas takes the same numerals in plain digits (`Decimal.isNumeral_isDigit_iff`), but skips
  blanks in front of them. So the two agree on values in plain digits, as long as no blank stands
  behind the sign. Main statement: `float_value_iff_number`.
-/

namespace ModCheck

open List
open Text (isBlank isDecimalDigit)

/-! ## The numbers of float fields -/

variable {cs : List Char} {p q : Char → Bool}

theorem sparesSigns_isDecimalDigit : Decimal.SparesSigns isDecimalDigit := by
  rintro c hc
  rcases by simpa using hc with rfl | rfl | rfl | rfl | rfl <;> decide

theorem isExponentText_iff : isExponentText cs = true ↔ Decimal.IsExponent isDecimalDigit cs := by
  refine Decimal.iff_isExponent isExponentText sparesSigns_isDecimalDigit rfl
    fun {mark sign rest} signed => ?_
  rcases signed.signs with rfl | rfl | rfl
  · cases rest with
    | nil => simp [isExponentText, isDigits]
    | cons c rest =>
      obtain ⟨plus, minus⟩ := signed.stops rfl c rfl
      simp [isExponentText, isDigits, plus, minus]
  · simp [isExponentText, isDigits]
  · simp [isExponentText, isDigits]

theorem isUnsignedText_iff : isUnsignedText cs = true ↔ Decimal.IsNumeral isDecimalDigit cs := by
  refine Decimal.iff_isNumeral isUnsignedText sparesSigns_isDecimalDigit
    (fun {digits rest} h point => ?_) fun {digits fraction rest} h h' => ?_
  · rw [← isExponentText_iff]
    simp only [isUnsignedText, h.split_eq]
    split
    · simp at point
    · simp
  · have first : (fraction ++ rest).head?.any isDecimalDigit = !fraction.isEmpty := by
      cases fraction with
      | nil =>
        cases rest with
        | nil => rfl
        | cons c rest => simpa using h'.stops c rfl
      | cons d fraction => simpa using h'.all d mem_cons_self
    simp only [isUnsignedText, h.split_eq, h'.split_eq, first]
    simp [isExponentText_iff]

/-- A text without one sign in front of it, if there is one. -/
def withoutSign : List Char → List Char
  | '+' :: cs => cs
  | '-' :: cs => cs
  | cs => cs

theorem isFloatText_eq (cs : List Char) : isFloatText cs = isUnsignedText (withoutSign cs) := by
  cases cs with
  | nil => rfl
  | cons c cs =>
    by_cases plus : c = '+'
    · subst plus
      rfl
    · by_cases minus : c = '-'
      · subst minus
        rfl
      · simp [isFloatText, withoutSign, plus, minus]

theorem exists_sign (cs : List Char) :
    ∃ sign, (sign = [] ∨ sign = ['+'] ∨ sign = ['-']) ∧ cs = sign ++ withoutSign cs := by
  unfold withoutSign
  split
  · exact ⟨['+'], by simp, rfl⟩
  · exact ⟨['-'], by simp, rfl⟩
  · exact ⟨[], by simp, rfl⟩

/-- The numbers of float fields are numerals in digits of any script, behind an optional sign:
`^[+-]?(\d+\.?\d*|\.\d+)([eE][+-]?\d+)?$`. -/
theorem isFloatText_iff : isFloatText cs = true ↔
    ∃ sign body, cs = sign ++ body ∧ (sign = [] ∨ sign = ['+'] ∨ sign = ['-']) ∧
      Decimal.IsNumeral isDecimalDigit body := by
  rw [isFloatText_eq]
  constructor
  · intro h
    obtain ⟨sign, signs, split⟩ := exists_sign cs
    exact ⟨sign, withoutSign cs, split, signs, isUnsignedText_iff.1 h⟩
  · rintro ⟨sign, body, rfl, signs, numeral⟩
    have unsigned := isUnsignedText_iff.2 numeral
    rcases signs with rfl | rfl | rfl
    · -- a numeral does not start with a sign
      have stays : withoutSign body = body := by
        unfold withoutSign
        split
        · simp [isUnsignedText, show isDecimalDigit '+' = false by decide] at unsigned
        · simp [isUnsignedText, show isDecimalDigit '-' = false by decide] at unsigned
        · rfl
      rwa [nil_append, stays]
    · exact unsigned
    · exact unsigned

/-! ## Plain digits -/

/-- Whether all digits of a text are plain ones. -/
def HasPlainDigits (cs : List Char) : Prop :=
  ∀ c ∈ cs, isDecimalDigit c = true → c.isDigit = true

instance : DecidablePred HasPlainDigits := fun cs =>
  decidable_of_iff (cs.all fun c => !isDecimalDigit c || c.isDigit)
    (by simp [HasPlainDigits, imp_iff_not_or])

namespace Decimal

theorem IsExponent.mono (h : IsExponent p cs) (imp : ∀ c ∈ cs, p c = true → q c = true) :
    IsExponent q cs := by
  cases h with
  | absent => exact .absent
  | present marked signed some all =>
    exact .present marked signed some fun d hd => imp d (by simp [hd]) (all d hd)

/-- A numeral stays one if more counts as a digit, and if less does but all of its own. -/
theorem IsNumeral.mono (h : IsNumeral p cs) (imp : ∀ c ∈ cs, p c = true → q c = true) :
    IsNumeral q cs := by
  cases h with
  | whole some all more =>
    exact .whole some (fun d hd => imp d (by simp [hd]) (all d hd))
      (more.mono fun d hd => imp d (by simp [hd]))
  | pointed some all all' more =>
    exact .pointed some (fun d hd => imp d (by simp [hd]) (all d hd))
      (fun d hd => imp d (by simp [hd]) (all' d hd)) (more.mono fun d hd => imp d (by simp [hd]))

/-- A numeral has digits and signs. -/
theorem IsNumeral.chars (h : IsNumeral p cs) :
    ∀ c ∈ cs, p c = true ∨ c ∈ ['.', 'e', 'E', '+', '-'] := by
  obtain ⟨w, exponent, rfl, more, all⟩ := Formula.numeral_parts h
  refine forall_mem_append.2 ⟨fun c hc => (all c hc).imp_right (by rintro rfl; simp), ?_⟩
  cases more with
  | absent => simp
  | present marked signed some all =>
    intro c hc
    rcases mem_cons.1 hc with rfl | hc
    · rcases marked with rfl | rfl <;> simp
    · rcases mem_append.1 hc with hc | hc
      · rcases signed with rfl | rfl | rfl <;> simp_all
      · exact .inl (all c hc)

theorem isNumeral_isDigit_iff :
    IsNumeral Char.isDigit cs ↔ IsNumeral isDecimalDigit cs ∧ HasPlainDigits cs := by
  constructor
  · intro h
    refine ⟨h.mono fun c _ => Formula.isDecimalDigit_of_isDigit, fun c hc digit => ?_⟩
    refine (h.chars c hc).resolve_right fun sign => ?_
    simp [sparesSigns_isDecimalDigit c sign] at digit
  · rintro ⟨h, plain⟩
    exact h.mono plain

end Decimal

/-! ## Numbers of formulas -/

/-- A text that is scanned as one number, and nothing else. -/
def Formula.IsNumber (text : String) : Prop :=
  ∃ t value, Formula.scan text = .ok [t] ∧ t.kind = .number value

namespace Formula

open Decimal (IsNumeral)

theorem exists_tokenText (h : IsNumeral Char.isDigit cs) :
    ∃ value, TokenText (.number value) cs := by
  obtain ⟨d, value⟩ := Option.isSome_iff_exists.1 (Decimal.isSome_parse?_iff.2 h)
  exact ⟨_, .number value⟩

theorem head_not_isBlank_of_isNumeral (h : IsNumeral Char.isDigit cs) :
    ∀ c ∈ cs.head?, isBlank c = false := by
  obtain ⟨value, token⟩ := exists_tokenText h
  exact fun c hc => (token.isTokenChar c (mem_of_head? hc)).visible

/-- A numeral is scanned as one number. -/
theorem isNumber_of_isNumeral (h : IsNumeral Char.isDigit cs) :
    IsNumber (String.ofList cs) := by
  obtain ⟨value, token⟩ := exists_tokenText h
  have longest := @token.longest _ _ [] (by simp [Halts])
  have scanned : Scans 0 (cs ++ []) _ := .token longest .done
  rw [append_nil] at scanned
  refine ⟨⟨.number value, String.ofList cs, ⟨0, 0 + cs.length⟩⟩, value, ?_, rfl⟩
  rw [scan, String.toList_ofList]
  exact scans_iff.2 scanned

/-- A text without blanks around it that is scanned as one number is a numeral. -/
theorem isNumeral_of_isNumber (first : ∀ c ∈ cs.head?, isBlank c = false)
    (last : ∀ c ∈ cs.getLast?, isBlank c = false) (h : IsNumber (String.ofList cs)) :
    IsNumeral Char.isDigit cs := by
  obtain ⟨t, value, scanned, number⟩ := h
  rw [scan, String.toList_ofList] at scanned
  cases scans_iff.1 scanned with
  | @blank _ c _ _ blank =>
    rw [first c rfl] at blank
    exact absurd blank Bool.false_ne_true
  | @token _ kind text rest _ longest more =>
    -- whatever stands behind the token is blank, and the text does not end in a blank
    rcases eq_nil_or_concat' rest with rfl | ⟨front, x, rfl⟩
    · rw [append_nil]
      cases longest.token with
      | sign sign =>
        have word := (not_word_of_sign sign).1
        rw [show kind = .number value from number] at word
        exact (Bool.false_ne_true word.symm).elim
      | number parsed => exact Decimal.isSome_parse?_iff.1 (by rw [parsed]; rfl)
      | name start all => exact absurd number (by simp)
    · have blank : isBlank x = true := more.blank_outside (i := front.length) (by simp) (by simp)
      rw [last x (by simp)] at blank
      exact absurd blank Bool.false_ne_true

end Formula

/-! ## Values -/

theorem getLast?_withoutSign (cs : List Char) :
    ∀ c ∈ (withoutSign cs).getLast?, c ∈ cs.getLast? := by
  unfold withoutSign
  intro c hc
  split at hc
  · exact mem_getLast?_cons hc
  · exact mem_getLast?_cons hc
  · exact hc

theorem getLast?_trim (cs : List Char) : ∀ c ∈ (Text.trim cs).getLast?, isBlank c = false := by
  intro c hc
  rw [Text.trim, Text.trimEnd, getLast?_reverse] at hc
  have := head?_dropWhile_not isBlank (Text.trimStart cs).reverse
  rwa [hc] at this

/-- The value of a float field has no issue just if it is a number with an optional sign. -/
theorem valueIssues_float_iff (schema : Schema) (options : Options) (key value : String)
    {field : Field} (float : field.type = .float) (real : field.isVirtual = false)
    (given : value.toList.all isBlank = false) :
    valueIssues schema options key value field = [] ↔
      isFloatText (Text.trim value.toList) = true := by
  rw [valueIssues, given, real, float]
  simp [typedIssues, partNames?, scalarIssue?, trimmedPiece, Text.Piece.trim]

/-- Float fields and formulas share one syntax of numbers. Without its sign, a value that passes the
check of a float field and has plain digits only is scanned as one number with no blank in front,
and the other way round. -/
theorem float_value_iff_number (schema : Schema) (options : Options) (key value : String)
    (field : Field) (float : field.type = .float) (real : field.isVirtual = false)
    (given : value.toList.all isBlank = false) :
    let body := withoutSign (Text.trim value.toList)
    (valueIssues schema options key value field = [] ∧ HasPlainDigits body) ↔
      (∀ c ∈ body.head?, isBlank c = false) ∧ Formula.IsNumber (String.ofList body) := by
  intro body
  rw [valueIssues_float_iff schema options key value float real given, isFloatText_eq,
    isUnsignedText_iff, ← Decimal.isNumeral_isDigit_iff]
  constructor
  · intro numeral
    exact ⟨Formula.head_not_isBlank_of_isNumeral numeral, Formula.isNumber_of_isNumeral numeral⟩
  · rintro ⟨first, number⟩
    have last : ∀ c ∈ body.getLast?, isBlank c = false := fun c hc =>
      getLast?_trim _ c (getLast?_withoutSign _ c hc)
    exact Formula.isNumeral_of_isNumber first last number

/-- A field for numbers with a point. -/
def floatField : Field :=
  ⟨"k", .float, false, none, false⟩

/-- A point without digits behind it, and an exponent. -/
theorem float_value_iff_number_exponent :
    " -1.e5".toList.all isBlank = false ∧
      valueIssues Schema.empty {} "k" " -1.e5" floatField = [] ∧ Formula.IsNumber "1.e5" := by
  have given : " -1.e5".toList.all isBlank = false := by decide +kernel
  have passes : valueIssues Schema.empty {} "k" " -1.e5" floatField = [] := by decide +kernel
  have plain : HasPlainDigits (withoutSign (Text.trim " -1.e5".toList)) := by decide +kernel
  have number := (float_value_iff_number Schema.empty {} "k" " -1.e5" floatField rfl rfl given).1
    ⟨passes, plain⟩
  exact ⟨given, passes, number.2⟩

/-- A blank behind the sign, a digit of another script, and a field whose values are not checked. -/
theorem number_syntaxes_differ :
    (valueIssues Schema.empty {} "k" "- 5" floatField ≠ [] ∧
      withoutSign (Text.trim "- 5".toList) = " 5".toList ∧ Formula.IsNumber " 5") ∧
    (valueIssues Schema.empty {} "k" "٣" floatField = [] ∧ ¬ Formula.IsNumber "٣") ∧
    valueIssues Schema.empty {} "k" "abc" { floatField with isVirtual := true } = [] ∧
      ¬ Formula.IsNumber "abc" := by
  have digit : Formula.scan "٣" = .error (.unexpectedChar '٣' 0) := by decide +kernel
  have name : Formula.scan "abc" = .ok [⟨.ident, "abc", ⟨0, 3⟩⟩] := by decide +kernel
  refine ⟨⟨by decide +kernel, by decide +kernel, ?_⟩, ⟨by decide +kernel, ?_⟩,
    by decide +kernel, ?_⟩
  · exact ⟨⟨.number ⟨0x4014000000000000⟩, "5", ⟨1, 2⟩⟩, _, by decide +kernel, rfl⟩
  · rintro ⟨t, value, scanned, -⟩
    rw [digit] at scanned
    cases scanned
  · rintro ⟨t, value, scanned, number⟩
    rw [name] at scanned
    cases scanned
    cases number

end ModCheck
