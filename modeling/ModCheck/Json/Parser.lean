import ModCheck.Json

/-
  Reading JSON text. Nothing beyond the standard grammar is accepted: no comments, no commas too
  many, no zeros in front, no control characters inside strings.
-/

namespace ModCheck.Json

/-! ## Strings -/

/-- A character of a string as written, or the 16-bit unit of a numbered escape. -/
inductive StringUnit where
  | char (c : Char)
  | unit (n : Nat)
deriving DecidableEq, Repr

/-- The value of a hexadecimal digit. -/
def hexValue? (c : Char) : Option Nat :=
  if c.isDigit then some (c.toNat - '0'.toNat)
  else if 'a' ≤ c && c ≤ 'f' then some (c.toNat - 'a'.toNat + 10)
  else if 'A' ≤ c && c ≤ 'F' then some (c.toNat - 'A'.toNat + 10)
  else none

/-- The number of four hexadecimal digits. -/
def hexUnit? (a b c d : Char) : Option Nat :=
  match hexValue? a, hexValue? b, hexValue? c, hexValue? d with
  | some a, some b, some c, some d => some (((a * 16 + b) * 16 + c) * 16 + d)
  | _, _, _, _ => none

/-- The character of a one-letter escape. -/
def escaped? : Char → Option Char
  | '\x22' => some '\x22'
  | '\x5c' => some '\x5c'
  | '/' => some '/'
  | 'b' => some '\x08'
  | 'f' => some '\x0c'
  | 'n' => some '\n'
  | 'r' => some '\r'
  | 't' => some '\t'
  | _ => none

/-- The units of a string after its opening quote, and what follows its closing quote. -/
def scanString : List Char → Option (List StringUnit × List Char)
  | [] => none
  | '\x22' :: rest => some ([], rest)
  | '\x5c' :: 'u' :: a :: b :: c :: d :: rest =>
    match hexUnit? a b c d, scanString rest with
    | some n, some (units, after) => some (.unit n :: units, after)
    | _, _ => none
  | '\x5c' :: c :: rest =>
    match escaped? c, scanString rest with
    | some e, some (units, after) => some (.char e :: units, after)
    | _, _ => none
  | c :: rest =>
    if c.toNat < 32 then none
    else match scanString rest with
      | some (units, after) => some (.char c :: units, after)
      | none => none

theorem scanString_length_le {cs : List Char} {units : List StringUnit} {after : List Char}
    (h : scanString cs = some (units, after)) : after.length < cs.length := by
  fun_induction scanString cs generalizing units after with
  | case1 => simp at h
  | case2 => simp_all
  | case3 a b c d rest n units' after' hs _ ih =>
    have := ih hs
    simp only [Option.some.injEq, Prod.mk.injEq] at h
    simp only [List.length_cons, ← h.2]
    omega
  | case4 => simp at h
  | case5 c rest hne e units' after' hs _ ih =>
    have := ih hs
    simp only [Option.some.injEq, Prod.mk.injEq] at h
    simp only [List.length_cons, ← h.2]
    omega
  | case6 => simp at h
  | case7 => simp at h
  | case8 c rest _ _ _ _ units' after' hs ih =>
    have := ih hs
    simp only [Option.some.injEq, Prod.mk.injEq] at h
    simp only [List.length_cons, ← h.2]
    omega
  | case9 => simp at h

def isHighSurrogate (n : Nat) : Bool :=
  0xD800 ≤ n && n ≤ 0xDBFF

def isLowSurrogate (n : Nat) : Bool :=
  0xDC00 ≤ n && n ≤ 0xDFFF

/-- The text of units; surrogates have to come in pairs. -/
def joinUnits : List StringUnit → Option (List Char)
  | [] => some []
  | .char c :: units => (joinUnits units).map (c :: ·)
  | .unit n :: units =>
    if isHighSurrogate n then
      match units with
      | .unit m :: rest =>
        if isLowSurrogate m then
          (joinUnits rest).map (Char.ofNat (0x10000 + (n - 0xD800) * 0x400 + (m - 0xDC00)) :: ·)
        else none
      | _ => none
    else if isLowSurrogate n then none
    else (joinUnits units).map (Char.ofNat n :: ·)

/-- The text of a string, if it holds one. -/
def unitsText (units : List StringUnit) : Option String :=
  (joinUnits units).map String.ofList

/-! ## Numbers -/

/-- The digits before the point: a zero, or digits that do not start with one. -/
def wholeDigits : List Char → List Char
  | '0' :: _ => ['0']
  | cs => cs.takeWhile Char.isDigit

/-- The point and the digits after it; nothing without a point. -/
def fractionDigits? : List Char → Option (List Char)
  | '.' :: cs =>
    let digits := cs.takeWhile Char.isDigit
    if digits.isEmpty then none else some ('.' :: digits)
  | _ => some []

/-- The exponent; nothing without its mark. -/
def exponentDigits? : List Char → Option (List Char)
  | [] => some []
  | mark :: cs =>
    if mark == 'e' || mark == 'E' then
      let sign := if cs.head? == some '+' || cs.head? == some '-' then cs.take 1 else []
      let digits := (cs.drop sign.length).takeWhile Char.isDigit
      if digits.isEmpty then none else some (mark :: sign ++ digits)
    else some []

/-- A number without its sign, and how many characters it takes. -/
def scanUnsigned (negative : Bool) (cs : List Char) : Option (JsonNumber × Nat) :=
  let whole := wholeDigits cs
  if whole.isEmpty then none
  else match fractionDigits? (cs.drop whole.length) with
    | none => none
    | some fraction =>
      let mantissa := whole ++ fraction
      match exponentDigits? (cs.drop mantissa.length) with
      | none => none
      | some exponent =>
        let text := mantissa ++ exponent
        (Decimal.parse? text).map fun d =>
          (⟨negative, fraction.isEmpty && exponent.isEmpty, d⟩, text.length)

/-- The number that starts with `c`, and how many characters after `c` it takes. -/
def scanNumber (c : Char) (cs : List Char) : Option (JsonNumber × Nat) :=
  if c == '-' then scanUnsigned true cs
  else (scanUnsigned false (c :: cs)).map fun (n, taken) => (n, taken - 1)

/-! ## Values -/

/-- The characters between tokens. -/
def isSpace (c : Char) : Bool :=
  c == ' ' || c == '\n' || c == '\t' || c == '\r'

def skipSpace (cs : List Char) : List Char :=
  cs.dropWhile isSpace

theorem skipSpace_length_le (cs : List Char) : (skipSpace cs).length ≤ cs.length :=
  (List.dropWhile_suffix (l := cs) isSpace).length_le

/-- What follows the first character after the spaces is shorter. -/
theorem length_lt_of_skipSpace {cs rest : List Char} {c : Char} (h : skipSpace cs = c :: rest) :
    rest.length < cs.length := by
  have := skipSpace_length_le cs
  rw [h] at this
  exact this

/-- A word that starts with a character already read. -/
def word? (word : String) (value : Json) (cs : List Char) : Option (Json × Nat) :=
  if cs.take word.length == word.toList then some (value, word.length) else none

/-- A value that is no array, object or string, by its first character. -/
def scanScalar (c : Char) (cs : List Char) : Option (Json × Nat) :=
  if c == 'n' then word? "ull" .null cs
  else if c == 't' then word? "rue" (.bool true) cs
  else if c == 'f' then word? "alse" (.bool false) cs
  else (scanNumber c cs).map fun (n, taken) => (.number n, taken)

/-- What is read from `cs`, and a shorter rest. -/
abbrev Read (α : Type) (cs : List Char) : Type :=
  Option (α × { rest : List Char // rest.length < cs.length })

mutual

/-- A value, with space before it. -/
def parseValue (cs : List Char) : Read Json cs :=
  match h : skipSpace cs with
  | [] => none
  | c :: rest =>
    have hlt : rest.length < cs.length := length_lt_of_skipSpace h
    if c == '\x22' then
      match hs : scanString rest with
      | none => none
      | some (units, after) =>
        some (.string (unitsText units), ⟨after, Nat.lt_trans (scanString_length_le hs) hlt⟩)
    else if c == '[' then
      match h' : skipSpace rest with
      | ']' :: after =>
        some (.array [], ⟨after, Nat.lt_trans (length_lt_of_skipSpace h') hlt⟩)
      | _ =>
        match parseItems rest with
        | none => none
        | some (items, ⟨after, ha⟩) => some (.array items, ⟨after, Nat.lt_trans ha hlt⟩)
    else if c == '\x7b' then
      match h' : skipSpace rest with
      | '\x7d' :: after =>
        some (.object [], ⟨after, Nat.lt_trans (length_lt_of_skipSpace h') hlt⟩)
      | _ =>
        match parseFields rest with
        | none => none
        | some (fields, ⟨after, ha⟩) => some (.object fields, ⟨after, Nat.lt_trans ha hlt⟩)
    else
      match scanScalar c rest with
      | none => none
      | some (value, taken) =>
        some (value, ⟨rest.drop taken, by simp only [List.length_drop]; omega⟩)
termination_by (cs.length, 0)

/-- The items of an array that has some, and its closing bracket. -/
def parseItems (cs : List Char) : Read (List Json) cs :=
  match parseValue cs with
  | none => none
  | some (item, ⟨rest, hr⟩) =>
    match h : skipSpace rest with
    | ']' :: after =>
      some ([item], ⟨after, Nat.lt_trans (length_lt_of_skipSpace h) hr⟩)
    | ',' :: after =>
      have ha : after.length < cs.length := Nat.lt_trans (length_lt_of_skipSpace h) hr
      match parseItems after with
      | none => none
      | some (items, ⟨last, hl⟩) => some (item :: items, ⟨last, Nat.lt_trans hl ha⟩)
    | _ => none
termination_by (cs.length, 1)

/-- The fields of an object that has some, and its closing brace. -/
def parseFields (cs : List Char) : Read (List (Option String × Json)) cs :=
  match h : skipSpace cs with
  | '\x22' :: start =>
    have h₁ : start.length < cs.length := length_lt_of_skipSpace h
    match hk : scanString start with
    | none => none
    | some (units, afterKey) =>
      have h₂ : afterKey.length < cs.length := Nat.lt_trans (scanString_length_le hk) h₁
      match hc : skipSpace afterKey with
      | ':' :: afterColon =>
        have h₃ : afterColon.length < cs.length := Nat.lt_trans (length_lt_of_skipSpace hc) h₂
        match parseValue afterColon with
        | none => none
        | some (value, ⟨rest, hr⟩) =>
          match he : skipSpace rest with
          | '\x7d' :: after =>
            some ([(unitsText units, value)],
              ⟨after, Nat.lt_trans (length_lt_of_skipSpace he) (Nat.lt_trans hr h₃)⟩)
          | ',' :: after =>
            have ha : after.length < cs.length :=
              Nat.lt_trans (length_lt_of_skipSpace he) (Nat.lt_trans hr h₃)
            match parseFields after with
            | none => none
            | some (fields, ⟨last, hl⟩) =>
              some ((unitsText units, value) :: fields, ⟨last, Nat.lt_trans hl ha⟩)
          | _ => none
      | _ => none
  | _ => none
termination_by (cs.length, 1)

end

/-- Reads a JSON text; nothing but space may follow the value. -/
def parse? (text : String) : Option Json :=
  match parseValue text.toList with
  | some (value, ⟨rest, _⟩) => if (skipSpace rest).isEmpty then some value else none
  | none => none

end ModCheck.Json
