import Mathlib.Data.List.Induction
import ModCheck.Proofs.Layout
import ModCheck.Proofs.Recovery

/-
  Writing objects and reading them back. An object is written as its type name in brackets and one
  line for each of its keys. A value can be written if it has no character that ends a value, no
  blanks at its ends and nothing inside that looks like the start of another property
  (`PlainValue`); then the scanner takes it whole (`PlainValue.isValue`). The lexemes of a written
  file are known (`lexed_drafts`), so are its tokens, its blocks and its objects. Main statement:
  `written_file_read_back`.
-/

namespace ModCheck

open List
open Text (isBlank)

variable {c : Char} {cs post pre source : List Char} {k : String} {line : Nat} {ls : List Lexeme}
  {place : Place} {seen : List String}

/-! ## Values that can be written -/

/-- Whether a blank of the text is followed by the start of a property. -/
def holdsProperty : List Char → Bool
  | [] => false
  | c :: cs => (isBlank c && startsProperty cs) || holdsProperty cs

/-- A value that stays whole between an equals sign and a semicolon. It may be empty. -/
structure PlainValue (value : List Char) : Prop where
  chars : ∀ c ∈ value, c ∉ ['\n', ';', '[']
  first : ∀ c, value.head? = some c → isBlank c = false
  last : ∀ c, value.getLast? = some c → isBlank c = false
  whole : holdsProperty value = false

theorem holdsProperty_cons :
    holdsProperty (c :: cs) = false ↔
      (isBlank c = true → startsProperty cs = false) ∧ holdsProperty cs = false := by
  simp only [holdsProperty, Bool.or_eq_false_iff, Bool.and_eq_false_imp]

/-- What follows a blank, further blanks aside, starts no property. -/
theorem startsProperty_splitGap (hc : isBlank c = true) (h : holdsProperty (c :: cs) = false) :
    startsProperty (splitGap cs).2 = false := by
  induction cs generalizing c with
  | nil => rfl
  | cons d cs ih =>
    obtain ⟨hstart, hrest⟩ := holdsProperty_cons.1 h
    rw [splitGap]
    split
    · next hgap => exact ih (isBlank_of_isGap hgap) hrest
    · exact hstart hc

theorem splitValue_of_plain {cs : List Char} (chars : ∀ c ∈ cs, c ∉ ['\n', ';', '['])
    (last : ∀ c, cs.getLast? = some c → isBlank c = false) (whole : holdsProperty cs = false) :
    splitValue cs = (cs, []) := by
  induction cs with
  | nil => rfl
  | cons c cs ih =>
    have hchars : ∀ d ∈ cs, d ∉ ['\n', ';', '['] := fun d hd => chars d (mem_cons_of_mem _ hd)
    have hlast : ∀ d, cs.getLast? = some d → isBlank d = false := by
      intro d hd
      apply last d
      rw [getLast?_cons, hd]
      rfl
    have hc := chars c mem_cons_self
    have hhead : cs.head? ≠ some '\n' := fun h =>
      hchars '\n' (mem_of_mem_head? h) (by simp)
    have hstop : (c == ';' || c == '[' || isLineEnd c cs) = false := by
      simp only [mem_cons, not_or] at hc
      simp [isLineEnd, hc, hhead]
    have hmore := ih hchars hlast (holdsProperty_cons.1 whole).2
    have hkeep : (isGap c cs && (startsProperty (splitGap cs).2 || cs.isEmpty)) = false := by
      rw [Bool.and_eq_false_imp]
      intro hgap
      have hblank := isBlank_of_isGap hgap
      rw [startsProperty_splitGap hblank whole]
      cases cs with
      | nil => exact absurd hblank (by simp [last c rfl])
      | cons d ds => rfl
    rw [splitValue, hstop, hmore]
    simp [hkeep]

theorem PlainValue.isValue (h : PlainValue (c :: cs)) : IsValue (c :: cs) := by
  have hc := h.chars c mem_cons_self
  have hreturn : c ≠ '\r' := fun e => by
    have := h.first c rfl
    rw [e] at this
    exact absurd this (by decide)
  refine ⟨?_, splitValue_of_plain ?_ ?_ (holdsProperty_cons.1 h.whole).2⟩
  · simp only [mem_cons, not_or] at hc ⊢
    exact ⟨hc.1, hreturn, hc.2⟩
  · exact fun d hd => h.chars d (mem_cons_of_mem _ hd)
  · intro d hd
    apply h.last d
    rw [getLast?_cons, hd]
    rfl

theorem plainValue_iff {value : List Char} :
    PlainValue value ↔ (value.all fun c => c ∉ ['\n', ';', '[']) = true ∧
      (value.head?.all fun c => !isBlank c) = true ∧
      (value.getLast?.all fun c => !isBlank c) = true ∧ holdsProperty value = false := by
  constructor
  · intro h
    simpa [Option.all_eq_true] using ⟨by simpa using h.chars, h.first, h.last, h.whole⟩
  · rintro ⟨chars, first, last, whole⟩
    exact ⟨by simpa using chars, by simpa [Option.all_eq_true] using first,
      by simpa [Option.all_eq_true] using last, whole⟩

instance : DecidablePred PlainValue := fun _ => decidable_of_iff _ plainValue_iff.symm

/-! ## Files to write -/

/-- A key and the value to write behind it. -/
structure Entry where
  key : String
  value : String
  named : IsName key.toList
  plain : PlainValue value.toList

/-- An object to write. -/
structure Draft where
  typeName : String
  entries : List Entry
  named : IsName typeName.toList

/-- A line for a key and its value. -/
def Entry.write (e : Entry) : List Char :=
  e.key.toList ++ '=' :: (e.value.toList ++ [';', '\n'])

/-- A line for the type name, then one for each entry. -/
def Draft.write (d : Draft) : List Char :=
  '[' :: (d.typeName.toList ++ ']' :: '\n' :: d.entries.flatMap Entry.write)

/-- A file with objects. -/
def writeDrafts (ds : List Draft) : String :=
  String.ofList (ds.flatMap Draft.write)

/-! ## Its lexemes -/

/-- A sign that stands directly behind what comes before it. -/
def Lexeme.sign (kind : TokenKind) (c : Char) : Lexeme :=
  ⟨[], kind, [c]⟩

/-- The lexeme of a value; an empty one has none. -/
def valueLexemes : List Char → List Lexeme
  | [] => []
  | c :: cs => [⟨[], .value, c :: cs⟩]

def Entry.lexemes (e : Entry) : List Lexeme :=
  ⟨[], .identifier, e.key.toList⟩ :: .sign .equals '=' ::
    (valueLexemes e.value.toList ++ [.sign .semicolon ';', .sign .newline '\n'])

def Draft.lexemes (d : Draft) : List Lexeme :=
  .sign .leftBracket '[' :: ⟨[], .identifier, d.typeName.toList⟩ :: .sign .rightBracket ']' ::
    .sign .newline '\n' :: d.entries.flatMap Entry.lexemes

theorem spell_valueLexemes (value : List Char) : spell (valueLexemes value) = value := by
  cases value <;> simp [valueLexemes]

theorem Entry.spell_lexemes (e : Entry) : spell e.lexemes = e.write := by
  simp [Entry.lexemes, Entry.write, spell_append, spell_valueLexemes, Lexeme.sign]

theorem spell_entries (es : List Entry) :
    spell (es.flatMap Entry.lexemes) = es.flatMap Entry.write := by
  induction es with
  | nil => rfl
  | cons e es ih => rw [flatMap_cons, spell_append, e.spell_lexemes, ih, flatMap_cons]

theorem Draft.spell_lexemes (d : Draft) : spell d.lexemes = d.write := by
  simp [Draft.lexemes, Draft.write, spell_entries, Lexeme.sign]

theorem spell_drafts (ds : List Draft) :
    spell (ds.flatMap Draft.lexemes) = ds.flatMap Draft.write := by
  induction ds with
  | nil => rfl
  | cons d ds ih => rw [flatMap_cons, spell_append, d.spell_lexemes, ih, flatMap_cons]

theorem splitGap_of_not_isBlank (hc : isBlank c = false) (cs : List Char) :
    splitGap (c :: cs) = ([], c :: cs) := by
  rw [splitGap, if_neg]
  intro hgap
  rw [isBlank_of_isGap hgap] at hc
  exact absurd hc (by decide)

theorem IsName.head_not_isBlank (h : IsName (c :: cs)) : isBlank c = false := by
  by_contra hb
  have := not_isWordStart_of_isBlank (Bool.not_eq_false _ ▸ hb)
  rw [h.1] at this
  exact absurd this (by decide)

theorem lexed_name {name : List Char} (hn : IsName name) (h : Lexed .normal ls)
    (hend : (spell ls).head?.any Token.isWordChar = false) :
    Lexed .normal (⟨[], .identifier, name⟩ :: ls) := by
  refine Lexed.cons ⟨?_, hn, by simp⟩ ⟨hend, by simp⟩ h
  cases name with
  | nil => exact hn.elim
  | cons c cs => exact splitGap_of_not_isBlank hn.head_not_isBlank cs

theorem lexed_value {value : List Char} (hv : PlainValue value)
    (h : Lexed .normal (.sign .semicolon ';' :: ls)) :
    Lexed .inValue (valueLexemes value ++ .sign .semicolon ';' :: ls) := by
  cases value with
  | nil =>
    cases h with
    | cons formed ends rest => exact Lexed.cons formed ends rest
  | cons c cs =>
    refine Lexed.cons ⟨?_, ⟨hv.isValue, by simp⟩⟩ ?_ h
    · exact splitGap_of_not_isBlank (hv.first c rfl) cs
    · show (splitValue (spell (.sign .semicolon ';' :: ls))).1 = []
      simp [Lexeme.sign, splitValue]

/-- A sign can stand before anything. -/
theorem lexed_sign {kind : TokenKind}
    (hk : (kind, c) ∈ [(.newline, '\n'), (.semicolon, ';'), (.leftBracket, '['),
      (.rightBracket, ']'), (.equals, '=')])
    (h : Lexed (ScanMode.normal.after kind) ls) : Lexed .normal (.sign kind c :: ls) := by
  simp only [mem_cons, not_mem_nil, or_false] at hk
  rcases hk with ⟨rfl, rfl⟩ | ⟨rfl, rfl⟩ | ⟨rfl, rfl⟩ | ⟨rfl, rfl⟩ | ⟨rfl, rfl⟩
  · exact Lexed.cons ⟨by decide, Or.inl rfl⟩ trivial h
  · exact Lexed.cons ⟨by decide, rfl⟩ trivial h
  · exact Lexed.cons ⟨by decide, rfl⟩ trivial h
  · exact Lexed.cons ⟨by decide, rfl, rfl⟩ trivial h
  · exact Lexed.cons ⟨by decide, rfl, rfl⟩ trivial h

theorem lexed_entry (e : Entry) (h : Lexed .normal ls) : Lexed .normal (e.lexemes ++ ls) := by
  have hsemicolon : Lexed .normal (.sign .semicolon ';' :: .sign .newline '\n' :: ls) :=
    lexed_sign (by simp) (lexed_sign (by simp) h)
  have hequals : Lexed .normal (.sign .equals '=' :: (valueLexemes e.value.toList ++
      .sign .semicolon ';' :: .sign .newline '\n' :: ls)) :=
    lexed_sign (by simp) (lexed_value e.plain hsemicolon)
  have hname := lexed_name e.named hequals (isWordChar_eq_false (c := '=') (by simp))
  simpa [Entry.lexemes] using hname

theorem lexed_entries (es : List Entry) (h : Lexed .normal ls) :
    Lexed .normal (es.flatMap Entry.lexemes ++ ls) := by
  induction es with
  | nil => exact h
  | cons e es ih =>
    rw [flatMap_cons, append_assoc]
    exact lexed_entry e ih

theorem lexed_draft (d : Draft) (h : Lexed .normal ls) : Lexed .normal (d.lexemes ++ ls) := by
  have hclose : Lexed .normal (.sign .rightBracket ']' :: .sign .newline '\n' ::
      (d.entries.flatMap Entry.lexemes ++ ls)) :=
    lexed_sign (by simp) (lexed_sign (by simp) (lexed_entries d.entries h))
  have hname := lexed_name d.named hclose (isWordChar_eq_false (c := ']') (by simp))
  exact lexed_sign (by simp) hname

/-- The lexemes of a written file. -/
theorem lexed_drafts (ds : List Draft) :
    lexemes .normal (ds.flatMap Draft.write) =
      ds.flatMap Draft.lexemes ++ [⟨[], .endOfFile, []⟩] := by
  have hlexed : Lexed .normal (ds.flatMap Draft.lexemes ++ [⟨[], .endOfFile, []⟩]) := by
    induction ds with
    | nil => exact Lexed.stop rfl
    | cons d ds ih =>
      rw [flatMap_cons, append_assoc]
      exact lexed_draft d ih
  rw [lexemes_eq_iff]
  refine ⟨hlexed, ?_⟩
  rw [spell_append, spell_drafts]
  simp

/-! ## Stored keys -/

/-- Keys as they are stored: a key that stands `n` times before gets `n` plus signs. -/
def numbered (seen : List String) : List String → List String
  | [] => []
  | k :: ks => plusKey k (seen.count k) :: numbered (seen ++ [k]) ks

/-- A key without plus signs. -/
def IsPlainKey (key : String) : Prop :=
  '+' ∉ key.toList

theorem numbered_append (seen ks : List String) (k : String) :
    numbered seen (ks ++ [k]) = numbered seen ks ++ [plusKey k ((seen ++ ks).count k)] := by
  induction ks generalizing seen with
  | nil => simp [numbered]
  | cons j ks ih => simp [numbered, ih]

theorem length_numbered (seen ks : List String) : (numbered seen ks).length = ks.length := by
  induction ks generalizing seen with
  | nil => rfl
  | cons k ks ih => simp [numbered, ih]

theorem numbered_getElem? (seen ks : List String) (i : Nat) :
    (numbered seen ks)[i]? = ks[i]?.map fun k => plusKey k ((seen ++ ks.take i).count k) := by
  induction ks generalizing seen i with
  | nil => simp [numbered]
  | cons k ks ih =>
    cases i with
    | zero => simp [numbered]
    | succ i => simp [numbered, ih]

/-- A stored key as it was written, without the plus signs at its end. -/
def Key.written (key : String) : String :=
  String.ofList (key.toList.reverse.dropWhile (· == '+')).reverse

theorem dropWhile_plus (h : '+' ∉ cs) : cs.reverse.dropWhile (· == '+') = cs.reverse := by
  rw [dropWhile_eq_self_iff]
  intro hlength
  have hmem := mem_reverse.1 (getElem_mem hlength)
  have hne : cs.reverse[0] ≠ '+' := fun e => h (e ▸ hmem)
  simpa using hne

theorem Key.written_plusKey {key : String} (h : IsPlainKey key) (n : Nat) :
    Key.written (plusKey key n) = key := by
  have hsigns : ∀ c ∈ replicate n '+', (c == '+') = true := fun c hc => by
    simp [eq_of_mem_replicate hc]
  rw [Key.written, plusKey, String.toList_append, String.toList_ofList, reverse_append,
    reverse_replicate, dropWhile_append_of_pos hsigns, dropWhile_plus h,
    reverse_reverse, String.ofList_toList]

/-- The plus signs tell keys apart that have none of their own. -/
theorem plusKey_inj {j : String} (hj : IsPlainKey j) (hk : IsPlainKey k) {m n : Nat} :
    plusKey j m = plusKey k n ↔ j = k ∧ m = n := by
  constructor
  · intro h
    have hlist : j.toList ++ replicate m '+' = k.toList ++ replicate n '+' := by
      simpa [plusKey] using congrArg String.toList h
    have hpart := congrArg (List.filter (· != '+')) hlist
    have hcount := congrArg (List.count '+') hlist
    have hplain : ∀ key : String, IsPlainKey key →
        key.toList.filter (· != '+') = key.toList ∧ key.toList.count '+' = 0 := by
      intro key hkey
      refine ⟨filter_eq_self.2 fun c hc => ?_, count_eq_zero.2 hkey⟩
      simpa using fun e : c = '+' => hkey (e ▸ hc)
    simp only [filter_append, hplain j hj, hplain k hk] at hpart
    simp only [count_append, hplain j hj, hplain k hk, count_replicate_self] at hcount
    exact ⟨String.toList_inj.1 (by simpa using hpart), by omega⟩
  · rintro ⟨rfl, rfl⟩
    rfl

theorem plusKey_mem_numbered (hseen : ∀ k ∈ seen, IsPlainKey k) (hk : IsPlainKey k) (m : Nat) :
    plusKey k m ∈ numbered [] seen ↔ m < seen.count k := by
  induction seen using List.reverseRecOn with
  | nil => simp [numbered]
  | append_singleton seen j ih =>
    have hj : IsPlainKey j := hseen j (by simp)
    have ih' := ih fun i hi => hseen i (mem_append_left _ hi)
    rw [numbered_append, mem_append, ih', mem_singleton, plusKey_inj hk hj]
    by_cases hjk : j = k
    · subst hjk
      simp
      omega
    · simp [hjk, Ne.symm hjk]

theorem freshKeyFrom_numbered (hseen : ∀ k ∈ seen, IsPlainKey k) (hk : IsPlainKey k) {tries n : Nat}
    (hn : n ≤ seen.count k) (ht : seen.count k ≤ n + tries) :
    freshKeyFrom (numbered [] seen) k tries n = plusKey k (seen.count k) := by
  induction tries generalizing n with
  | zero =>
    rw [freshKeyFrom, show n = seen.count k by omega]
  | succ tries ih =>
    rw [freshKeyFrom, contains_eq_mem]
    simp only [plusKey_mem_numbered hseen hk, decide_eq_true_eq]
    split
    · next hlt => exact ih (by omega) (by omega)
    · rw [show n = seen.count k by omega]

/-- A key that stands `n` times before is stored with `n` plus signs. -/
theorem storedKeys_numbered {ks : List String} (hseen : ∀ k ∈ seen, IsPlainKey k)
    (hks : ∀ k ∈ ks, IsPlainKey k) : storedKeys (numbered [] seen) ks = numbered seen ks := by
  induction ks generalizing seen with
  | nil => rfl
  | cons k ks ih =>
    have hk := hks k mem_cons_self
    have hfresh : freshKey (numbered [] seen) k = plusKey k (seen.count k) := by
      rw [freshKey, length_numbered]
      have := count_le_length (a := k) (l := seen)
      exact freshKeyFrom_numbered hseen hk (Nat.zero_le _) (by omega)
    have happend : numbered [] seen ++ [plusKey k (seen.count k)] = numbered [] (seen ++ [k]) := by
      rw [numbered_append, nil_append]
    rw [storedKeys, numbered, hfresh, happend, ih]
    · intro j hj
      rcases mem_append.1 hj with hj | hj
      · exact hseen j hj
      · rwa [mem_singleton.1 hj]
    · exact fun j hj => hks j (mem_cons_of_mem _ hj)

/-! ## What is read -/

/-- The property that an entry on a line is read into. -/
def Entry.property (line : Nat) (e : Entry) : Property :=
  { value := e.value
    nameSpan := ⟨line, 0, e.key.length⟩
    valueSpan := ⟨⟨line, e.key.length + 1⟩, ⟨line, e.key.length + 1 + e.value.length⟩⟩
    terminated := true }

/-- The object that a draft is read into when its heading stands on a line. -/
def Draft.object (file : String) (line : Nat) (d : Draft) : Object :=
  { typeName := d.typeName
    file := file
    properties := (numbered [] (d.entries.map Entry.key)).zip
      (d.entries.mapIdx fun i e => e.property (line + 1 + i))
    startLine := line
    endLine := line + d.entries.length
    typeSpan := ⟨line, 1, 1 + d.typeName.length⟩ }

/-- The objects of drafts, the first of which starts on a line. -/
def draftObjects (file : String) : Nat → List Draft → List Object
  | _, [] => []
  | line, d :: ds => d.object file line :: draftObjects file (line + 1 + d.entries.length) ds

theorem Entry.after_write (e : Entry) (line : Nat) :
    Position.after ⟨line, 0⟩ e.write = ⟨line + 1, 0⟩ := by
  have hkey : '\n' ∉ e.key.toList := (solidText_name e.named).oneLine
  have hvalue : '\n' ∉ e.value.toList := fun h => e.plain.chars _ h (by simp)
  have hline : '\n' ∉ e.key.toList ++ '=' :: (e.value.toList ++ [';']) := by
    simp [hkey, hvalue]
  have hsplit : e.write = (e.key.toList ++ '=' :: (e.value.toList ++ [';'])) ++ ['\n'] := by
    simp [Entry.write]
  rw [hsplit, Position.after_append, Position.after_of_not_mem _ hline]
  rfl

theorem after_entries (es : List Entry) (line : Nat) :
    Position.after ⟨line, 0⟩ (es.flatMap Entry.write) = ⟨line + es.length, 0⟩ := by
  induction es generalizing line with
  | nil => rfl
  | cons e es ih =>
    rw [flatMap_cons, Position.after_append, e.after_write, ih, length_cons]
    simp only [Position.mk.injEq, and_true]
    omega

theorem Draft.after_heading (d : Draft) (line : Nat) :
    Position.after ⟨line, 0⟩ ('[' :: (d.typeName.toList ++ [']', '\n'])) = ⟨line + 1, 0⟩ := by
  have hname : '\n' ∉ d.typeName.toList := (solidText_name d.named).oneLine
  have hline : '\n' ∉ '[' :: (d.typeName.toList ++ [']']) := by simp [hname]
  have hsplit : '[' :: (d.typeName.toList ++ [']', '\n']) =
      '[' :: (d.typeName.toList ++ [']']) ++ ['\n'] := by simp
  rw [hsplit, Position.after_append, Position.after_of_not_mem _ hline]
  rfl

theorem Draft.after_write (d : Draft) (line : Nat) :
    Position.after ⟨line, 0⟩ d.write = ⟨line + 1 + d.entries.length, 0⟩ := by
  have hsplit : d.write =
      '[' :: (d.typeName.toList ++ [']', '\n']) ++ d.entries.flatMap Entry.write := by
    simp [Draft.write]
  rw [hsplit, Position.after_append, d.after_heading, after_entries]

/-- The tokens of a value behind an equals sign make up the value, and span it. -/
theorem value_tokens (value : List Char) {equals : Token} (h : place.position = equals.stop) :
    (∀ t ∈ placeLexemes place (valueLexemes value), t.kind = .value) ∧
      joinTokens (placeLexemes place (valueLexemes value)) = value ∧
      valueSpan equals (placeLexemes place (valueLexemes value)) =
        ⟨equals.stop, ⟨equals.line, equals.endColumn + value.length⟩⟩ := by
  cases value with
  | nil => exact ⟨by simp [valueLexemes, placeLexemes], rfl, rfl⟩
  | cons c cs =>
    simp [valueLexemes, placeLexemes, Lexeme.toToken, Place.after, joinTokens, joinTokensFrom,
      valueSpan, h, Token.stop, Token.line, Token.endColumn, Nat.add_comm]

/-- The tokens of an entry, and the property that they make up. -/
theorem entry_tokens (e : Entry) (h : place.position = ⟨line, 0⟩) :
    ∃ key equals value semicolon newline,
      placeLexemes place e.lexemes = key :: equals :: (value ++ [semicolon, newline]) ∧
      key.kind = .identifier ∧ equals.kind = .equals ∧ (∀ t ∈ value, t.kind = .value) ∧
      semicolon.kind = .semicolon ∧ newline.kind = .newline ∧
      ∀ due, (Statement.assignment key equals value .semicolon due).property? =
          some (e.key, e.property line) ∧
        (Statement.assignment key equals value .semicolon due).lastLine = line := by
  have hkey : '\n' ∉ e.key.toList := (solidText_name e.named).oneLine
  obtain ⟨key, hk⟩ : ∃ key, key = (Lexeme.mk [] .identifier e.key.toList).toToken place := ⟨_, rfl⟩
  obtain ⟨equals, he⟩ : ∃ equals, equals =
      (Lexeme.sign .equals '=').toToken (place.after e.key.toList) := ⟨_, rfl⟩
  obtain ⟨behind, hbehind⟩ : ∃ behind, behind = (place.after e.key.toList).after ['='] := ⟨_, rfl⟩
  have hafter : (place.after e.key.toList).position = ⟨line, e.key.length⟩ := by
    simp [Place.after, h, Position.after_of_not_mem _ hkey, String.length_toList]
  have hequals : equals.start = ⟨line, e.key.length⟩ ∧ equals.text.length = 1 := by
    constructor
    · rw [he, ← hafter]
      rfl
    · rw [he]
      exact String.length_ofList
  have hstop : behind.position = equals.stop := by
    rw [hbehind, Token.stop, Token.line, Token.endColumn, hequals.1, hequals.2]
    show Position.after (place.after e.key.toList).position ['='] = _
    rw [hafter]
    rfl
  obtain ⟨hkinds, hjoin, hspan⟩ := value_tokens e.value.toList hstop
  have hplaced : placeLexemes place e.lexemes = key :: equals ::
      (placeLexemes behind (valueLexemes e.value.toList) ++
        [(Lexeme.sign .semicolon ';').toToken (behind.after e.value.toList),
         (Lexeme.sign .newline '\n').toToken ((behind.after e.value.toList).after [';'])]) := by
    rw [Entry.lexemes, placeLexemes, placeLexemes, placeLexemes_append, spell_valueLexemes, hk, he,
      hbehind]
    rfl
  refine ⟨key, equals, _, _, _, hplaced, by rw [hk]; rfl, by rw [he]; rfl, hkinds, rfl, rfl, ?_⟩
  have hkeySpan : key.text = e.key ∧ key.start = ⟨line, 0⟩ := by
    simp [hk, Lexeme.toToken, Place.after, h]
  simp only [Statement.property?, Statement.lastLine, hjoin, hspan, hkeySpan, Entry.property,
    Token.stop, Token.line, Token.endColumn, Token.lineSpan, hequals]
  simp [String.length_toList]

theorem readValue_semicolon {value rest : List Token} {semicolon : Token}
    (hvalue : ∀ t ∈ value, t.kind = .value) (hs : semicolon.kind = .semicolon) :
    readValue (value ++ semicolon :: rest) = (value, .semicolon, rest) := by
  induction value with
  | nil => rw [nil_append, readValue, if_pos hs]
  | cons t ts ih =>
    have ht := hvalue t mem_cons_self
    rw [cons_append, readValue, ih fun u hu => hvalue u (mem_cons_of_mem _ hu)]
    simp [ht, startsAssignment_of_ne]

/-- Entries from a line on are read into their properties, without messages. -/
structure ReadsEntries (file : String) (line : Nat) (es : List Entry) (ts : List Token) : Prop where
  inner : Inner ts
  properties : (readStatements ts).filterMap Statement.property? =
    es.mapIdx fun i e => (e.key, e.property (line + i))
  messages : (readStatements ts).flatMap (Statement.messages file) = []
  lastLine : ∀ last, last + 1 = line →
    ((readStatements ts).map Statement.lastLine).foldl max last = last + es.length

theorem readsEntries (file : String) (es : List Entry) (h : place.position = ⟨line, 0⟩) :
    ReadsEntries file line es (placeLexemes place (es.flatMap Entry.lexemes)) := by
  induction es generalizing place line with
  | nil =>
    have hnone : readStatements [] = [] := by rw [readStatements]
    refine ⟨by simp [Inner, placeLexemes], ?_, ?_, ?_⟩ <;> simp [placeLexemes, hnone]
  | cons e es ih =>
    have hnext : (place.after e.write).position = ⟨line + 1, 0⟩ := by
      rw [Place.after, h, e.after_write]
    obtain ⟨key, equals, value, semicolon, newline, htokens, hk, he, hv, hs, hn, hproperty⟩ :=
      entry_tokens e h
    have hplaced : placeLexemes place ((e :: es).flatMap Entry.lexemes) =
        key :: equals :: (value ++ semicolon :: newline ::
          placeLexemes (place.after e.write) (es.flatMap Entry.lexemes)) := by
      rw [flatMap_cons, placeLexemes_append, htokens, e.spell_lexemes]
      simp
    obtain ⟨inner, properties, messages, lastLine⟩ := ih hnext
    have hstatements : ∃ due,
        readStatements (placeLexemes place ((e :: es).flatMap Entry.lexemes)) =
        .assignment key equals value .semicolon due ::
          readStatements (placeLexemes (place.after e.write) (es.flatMap Entry.lexemes)) := by
      rw [hplaced, readStatements_assignment hk he, readValue_semicolon hv hs]
      exact ⟨_, by rw [readStatements_separator (Or.inl hn)]⟩
    obtain ⟨due, hstatements⟩ := hstatements
    refine ⟨?_, ?_, ?_, ?_⟩
    · rw [hplaced]
      intro t ht
      simp only [mem_cons, mem_append] at ht
      rcases ht with rfl | rfl | ht | rfl | rfl | ht
      · simp [hk]
      · simp [he]
      · simp [hv t ht]
      · simp [hs]
      · simp [hn]
      · exact inner t ht
    · rw [hstatements, filterMap_cons, (hproperty due).1, properties]
      simp [Nat.add_assoc, Nat.add_comm 1]
    · rw [hstatements, flatMap_cons, messages]
      simp [Statement.messages]
    · intro last hlast
      rw [hstatements, map_cons, foldl_cons, (hproperty due).2,
        Nat.max_eq_right (by omega), lastLine line rfl, length_cons]
      omega

/-- The section of a draft. -/
theorem draft_tokens (file : String) (d : Draft) (h : place.position = ⟨line, 0⟩) :
    ∃ opening name close newline ts,
      placeLexemes place d.lexemes = opening :: name :: close :: newline :: ts ∧
      opening.kind = .leftBracket ∧ name.kind = .identifier ∧ close.kind = .rightBracket ∧
      newline.kind = .newline ∧ opening.line = line ∧ name.text = d.typeName ∧
      name.start = ⟨line, 1⟩ ∧ ReadsEntries file (line + 1) d.entries ts := by
  have hplaced : placeLexemes place d.lexemes =
      (Lexeme.sign .leftBracket '[').toToken place ::
      (Lexeme.mk [] .identifier d.typeName.toList).toToken (place.after ['[']) ::
      (Lexeme.sign .rightBracket ']').toToken ((place.after ['[']).after d.typeName.toList) ::
      (Lexeme.sign .newline '\n').toToken
        (((place.after ['[']).after d.typeName.toList).after [']']) ::
      placeLexemes (place.after ('[' :: (d.typeName.toList ++ [']', '\n'])))
        (d.entries.flatMap Entry.lexemes) := by
    have hafter : place.after ('[' :: (d.typeName.toList ++ [']', '\n'])) =
        (((place.after ['[']).after d.typeName.toList).after [']']).after ['\n'] := by
      rw [← Place.after_append, ← Place.after_append, ← Place.after_append]
      simp
    rw [hafter]
    rfl
  refine ⟨_, _, _, _, _, hplaced, rfl, rfl, rfl, rfl, ?_, ?_, ?_, ?_⟩
  · simp [Lexeme.toToken, Lexeme.sign, Token.line, Place.after, h]
  · simp [Lexeme.toToken]
  · simp [Lexeme.toToken, Place.after, h, Position.next]
  · apply readsEntries
    rw [Place.after, h, d.after_heading]

/-- A name has no plus sign. -/
theorem IsName.isPlainKey {key : String} (h : IsName key.toList) : IsPlainKey key := by
  have hplus : Token.isWordStart '+' = false ∧ Token.isWordChar '+' = false := by decide
  intro hmem
  cases hk : key.toList with
  | nil => simp [hk] at hmem
  | cons c cs =>
    rw [hk] at h hmem
    rcases mem_cons.1 hmem with rfl | hmem
    · exact absurd h.1 (by simp [hplus.1])
    · exact absurd (h.2 _ hmem) (by simp [hplus.2])

theorem draft_block (file : String) (d : Draft) {opening name close newline : Token}
    {ts : List Token} (hname : name.kind = .identifier) (hclose : close.kind = .rightBracket)
    (hnewline : newline.kind = .newline) (hopening : opening.line = line)
    (htext : name.text = d.typeName) (hstart : name.start = ⟨line, 1⟩)
    (entries : ReadsEntries file (line + 1) d.entries ts) :
    (Section.toBlock ⟨opening, name :: close :: newline :: ts⟩).object? file =
        some (d.object file line) ∧
      (Section.toBlock ⟨opening, name :: close :: newline :: ts⟩).messages file = [] := by
  have hblock : Section.toBlock ⟨opening, name :: close :: newline :: ts⟩ =
      ⟨opening, .named name true, readStatements ts⟩ := by
    simp [Section.toBlock, readHeading, hname, hclose, readStatements_separator (Or.inl hnewline)]
  have hkeys : storedKeys [] (d.entries.map Entry.key) = numbered [] (d.entries.map Entry.key) := by
    have hnone : ∀ k ∈ ([] : List String), IsPlainKey k := fun k hk => absurd hk not_mem_nil
    apply storedKeys_numbered hnone
    intro k hk
    obtain ⟨e, -, rfl⟩ := mem_map.1 hk
    exact e.named.isPlainKey
  rw [hblock]
  constructor
  · have hwritten : (d.entries.mapIdx fun i e => (e.key, e.property (line + 1 + i))).map (·.1) =
        d.entries.map Entry.key := by
      apply ext_getElem?
      simp [Function.comp_def]
    have hproperties : (d.entries.mapIdx fun i e => (e.key, e.property (line + 1 + i))).map (·.2) =
        d.entries.mapIdx fun i e => e.property (line + 1 + i) := by
      apply ext_getElem?
      simp [Function.comp_def]
    simp only [Block.object?, entries.properties, foldl_insert, Object.empty, Object.keys,
      map_nil, nil_append, Token.lineSpan, Token.endColumn, hstart, htext, hopening,
      entries.lastLine line rfl, Draft.object, hwritten, hproperties, hkeys]
  · simp [Block.messages, Block.headingMessages, entries.messages]

/-- Drafts from a line on are read into their objects, without messages and strays. -/
theorem drafts_sections (file : String) (ds : List Draft) (h : place.position = ⟨line, 0⟩)
    {ts : List Token}
    (hts : ts = placeLexemes place (ds.flatMap Draft.lexemes ++ [⟨[], .endOfFile, []⟩])) :
    (splitSections ts).1 = [] ∧
      (blocksOf ts).filterMap (Block.object? file) = draftObjects file line ds ∧
      (blocksOf ts).flatMap (Block.messages file) = [] := by
  induction ds generalizing place line ts with
  | nil => simp [hts, placeLexemes, Lexeme.toToken, splitSections, blocksOf, draftObjects]
  | cons d ds ih =>
    obtain ⟨opening, name, close, newline, us, htokens, hopening, hname, hclose, hnewline, hline,
      htext, hstart, entries⟩ := draft_tokens file d h
    have hnext : (place.after d.write).position = ⟨line + 1 + d.entries.length, 0⟩ := by
      rw [Place.after, h, d.after_write]
    obtain ⟨hstray, hobjects, hmessages⟩ := ih hnext rfl
    obtain ⟨hobject, hmessage⟩ :=
      draft_block file d hname hclose hnewline hline htext hstart entries
    have inner : Inner (name :: close :: newline :: us) := by
      intro t ht
      simp only [mem_cons] at ht
      rcases ht with rfl | rfl | rfl | ht
      · simp [hname]
      · simp [hclose]
      · simp [hnewline]
      · exact entries.inner t ht
    have hsections : splitSections ts = ([], ⟨opening, name :: close :: newline :: us⟩ ::
        (splitSections (placeLexemes (place.after d.write)
          (ds.flatMap Draft.lexemes ++ [⟨[], .endOfFile, []⟩]))).2) := by
      rw [hts, flatMap_cons, append_assoc, placeLexemes_append, htokens,
        d.spell_lexemes, cons_append, splitSections, if_neg (by simp [hopening]),
        splitSections_inner inner, hstray, if_pos hopening, append_nil]
    refine ⟨by rw [hsections], ?_, ?_⟩
    · rw [blocksOf, hsections, map_cons, filterMap_cons, hobject]
      exact congrArg _ hobjects
    · rw [blocksOf, hsections, map_cons, flatMap_cons, hmessage]
      exact hmessages

theorem parse_writeDrafts (ds : List Draft) (file : String) :
    Document.parse (writeDrafts ds) file = ⟨linkNeighbours (draftObjects file 1 ds), []⟩ := by
  have hscan : Token.scan (writeDrafts ds) =
      placeLexemes .start (ds.flatMap Draft.lexemes ++ [⟨[], .endOfFile, []⟩]) := by
    rw [Token.scan, writeDrafts, String.toList_ofList, lexed_drafts]
  obtain ⟨hstray, hobjects, hmessages⟩ := drafts_sections file ds rfl hscan
  have hread : (Document.parse (writeDrafts ds) file).objects =
      linkNeighbours (draftObjects file 1 ds) := by
    rw [parse_objects, hobjects]
  have hsilent : (Document.parse (writeDrafts ds) file).messages = [] := by
    rw [parse_messages, hstray, hmessages, strayMessages_nil, append_nil]
  rw [← hread, ← hsilent]

/-! ## The text on a span -/

/-- The characters of a text that a span covers. -/
def Span.text? (source : List Char) (s : Span) : Option (List Char) :=
  match s.start.index? source, s.stop.index? source with
  | some i, some j => some ((source.take j).drop i)
  | _, _ => none

theorem text?_eq {text : List Char} (hstart : Addressable pre (text ++ post))
    (hstop : Addressable (pre ++ text) post) :
    Span.text? (pre ++ (text ++ post))
      ⟨Position.after ⟨1, 0⟩ pre, Position.after ⟨1, 0⟩ (pre ++ text)⟩ = some text := by
  have hj := index?_after hstop
  rw [append_assoc] at hj
  rw [Span.text?, index?_after hstart, hj]
  simp [take_append]

/-- At the start of a line no carriage return stands before. -/
theorem getLast?_of_column (h : Position.after ⟨1, 0⟩ pre = ⟨line, 0⟩) :
    pre.getLast? ≠ some '\r' := by
  intro hlast
  obtain ⟨init, rfl⟩ := getLast?_eq_some_iff.1 hlast
  rw [Position.after_append] at h
  simp [Position.next] at h

/-- The spans of an entry's property cover what was written. -/
theorem Entry.text?_property (e : Entry) (hsource : source = pre ++ (e.write ++ post))
    (h : Position.after ⟨1, 0⟩ pre = ⟨line, 0⟩) :
    (e.property line).nameSpan.toSpan.text? source = some e.key.toList ∧
      (e.property line).valueSpan.text? source = some e.value.toList := by
  have hkey : '\n' ∉ e.key.toList := (solidText_name e.named).oneLine
  have hvalue : '\n' ∉ e.value.toList := fun h => e.plain.chars _ h (by simp)
  have hname : Position.after ⟨1, 0⟩ (pre ++ e.key.toList) = ⟨line, e.key.length⟩ := by
    rw [Position.after_append, h, Position.after_of_not_mem _ hkey, String.length_toList]
    simp
  have hequals : Position.after ⟨1, 0⟩ (pre ++ e.key.toList ++ ['=']) =
      ⟨line, e.key.length + 1⟩ := by
    rw [Position.after_append, hname]
    rfl
  have hend : Position.after ⟨1, 0⟩ (pre ++ e.key.toList ++ ['='] ++ e.value.toList) =
      ⟨line, e.key.length + 1 + e.value.length⟩ := by
    rw [Position.after_append, hequals, Position.after_of_not_mem _ hvalue, String.length_toList]
  constructor
  · have hsplit : source =
        pre ++ (e.key.toList ++ ('=' :: (e.value.toList ++ [';', '\n'] ++ post))) := by
      rw [hsource, Entry.write]
      simp
    have := text?_eq (Or.inl (getLast?_of_column h))
      ((solidText_name e.named).addressable_stop pre
        ('=' :: (e.value.toList ++ [';', '\n'] ++ post)))
    rwa [← hsplit, h, hname] at this
  · have hsplit : source = pre ++ e.key.toList ++ ['='] ++
        (e.value.toList ++ ([';', '\n'] ++ post)) := by
      rw [hsource, Entry.write]
      simp
    have hstop : Addressable (pre ++ e.key.toList ++ ['='] ++ e.value.toList)
        ([';', '\n'] ++ post) := by
      refine Or.inr ⟨';', by simp, by decide⟩
    have := text?_eq (Or.inl (by simp)) hstop
    rwa [← hsplit, hequals, hend] at this

theorem Draft.text?_properties (d : Draft) (file : String)
    (hsource : source = pre ++ (d.write ++ post)) (h : Position.after ⟨1, 0⟩ pre = ⟨line, 0⟩)
    {q : String × Property} (hq : q ∈ (d.object file line).properties) :
    q.2.nameSpan.toSpan.text? source = some (Key.written q.1).toList ∧
      q.2.valueSpan.text? source = some q.2.value.toList := by
  obtain ⟨i, hi⟩ := mem_iff_getElem?.1 hq
  obtain ⟨hkey, hproperty⟩ := getElem?_zip_eq_some.1 hi
  rw [getElem?_mapIdx] at hproperty
  obtain ⟨e, he, hproperty⟩ := Option.map_eq_some_iff.1 hproperty
  rw [numbered_getElem?, getElem?_map, he] at hkey
  obtain ⟨hi', rfl⟩ := List.getElem?_eq_some_iff.1 he
  have hwritten : Key.written q.1 = d.entries[i].key := by
    rw [← Option.some.inj hkey]
    exact Key.written_plusKey d.entries[i].named.isPlainKey _
  -- the entry stands behind the heading and the entries before it
  have hentries : d.entries.flatMap Entry.write = (d.entries.take i).flatMap Entry.write ++
      (d.entries[i].write ++ (d.entries.drop (i + 1)).flatMap Entry.write) := by
    rw [← flatMap_cons, ← flatMap_append, ← drop_eq_getElem_cons hi', take_append_drop]
  have hsplit : source = (pre ++ '[' :: (d.typeName.toList ++ [']', '\n']) ++
      (d.entries.take i).flatMap Entry.write) ++
        (d.entries[i].write ++ ((d.entries.drop (i + 1)).flatMap Entry.write ++ post)) := by
    rw [hsource, Draft.write, hentries]
    simp
  have hplace : Position.after ⟨1, 0⟩ (pre ++ '[' :: (d.typeName.toList ++ [']', '\n']) ++
      (d.entries.take i).flatMap Entry.write) = ⟨line + 1 + i, 0⟩ := by
    rw [Position.after_append, Position.after_append, h, d.after_heading, after_entries,
      length_take, Nat.min_eq_left hi'.le]
  have htext := d.entries[i].text?_property hsplit hplace
  rw [hwritten, ← hproperty]
  exact htext

theorem mem_draftObjects {file : String} {ds : List Draft}
    (hsource : source = pre ++ ds.flatMap Draft.write) (h : Position.after ⟨1, 0⟩ pre = ⟨line, 0⟩)
    {o : Object} (ho : o ∈ draftObjects file line ds) :
    ∃ (d : Draft) (line' : Nat) (pre' post : List Char), o = d.object file line' ∧
      source = pre' ++ (d.write ++ post) ∧ Position.after ⟨1, 0⟩ pre' = ⟨line', 0⟩ := by
  induction ds generalizing pre line with
  | nil => simp [draftObjects] at ho
  | cons d ds ih =>
    rw [flatMap_cons] at hsource
    rcases mem_cons.1 ho with rfl | ho
    · exact ⟨d, line, pre, _, rfl, hsource, h⟩
    · rw [← append_assoc] at hsource
      refine ih hsource ?_ ho
      rw [Position.after_append, h, d.after_write]

/-- A written file is read without messages into exactly the objects that were written, and the
spans of keys and values cover them. -/
theorem written_file_read_back (ds : List Draft) (file : String) :
    Document.parse (writeDrafts ds) file = ⟨linkNeighbours (draftObjects file 1 ds), []⟩ ∧
      ∀ o ∈ (Document.parse (writeDrafts ds) file).objects, ∀ q ∈ o.properties,
        q.2.nameSpan.toSpan.text? (writeDrafts ds).toList = some (Key.written q.1).toList ∧
          q.2.valueSpan.text? (writeDrafts ds).toList = some q.2.value.toList := by
  have hparse := parse_writeDrafts ds file
  refine ⟨hparse, ?_⟩
  rw [hparse]
  intro o ho q hq
  obtain ⟨i, hi, rfl⟩ := mem_mapIdx.1 ho
  have hsource : (writeDrafts ds).toList = [] ++ ds.flatMap Draft.write := by
    simp [writeDrafts]
  obtain ⟨d, line, pre, post, hd, hsplit, hplace⟩ :=
    mem_draftObjects hsource rfl (List.getElem_mem hi)
  dsimp only at hq
  rw [hd] at hq
  exact d.text?_properties file hsplit hplace hq

/-- Two objects, the first with a marked key and with a key that is repeated, the second without a
value. -/
theorem written_file_read_back_repeated :
    let ds : List Draft :=
      [⟨"A", [⟨"k", "1", by decide, by decide⟩, ⟨"!j", "a]= <b=1> -- c", by decide, by decide⟩,
          ⟨"k", "2", by decide, by decide⟩], by decide⟩,
       ⟨"B", [⟨"!j", "", by decide, by decide⟩], by decide⟩]
    writeDrafts ds = "[A]\nk=1;\n!j=a]= <b=1> -- c;\nk=2;\n[B]\n!j=;\n" ∧
      ((Document.parse (writeDrafts ds) "f").objects.map fun o =>
        (o.typeName, o.startLine, o.previous, o.properties.map fun q => (q.1, q.2.value))) =
        [("A", 1, none, [("k", "1"), ("!j", "a]= <b=1> -- c"), ("k+", "2")]),
         ("B", 5, some 0, [("!j", "")])] ∧
      (Document.parse (writeDrafts ds) "f").messages = [] := by
  intro ds
  rw [(written_file_read_back ds "f").1]
  decide +kernel

end ModCheck
