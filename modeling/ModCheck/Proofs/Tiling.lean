import Mathlib.Data.List.DropRight
import ModCheck.Proofs.Rewording

/-
  The tokens of a file and the blanks between them are the file. Every token is the piece of the
  text between its two offsets, the pieces between neighbours are blanks without a line feed, and
  put together they are the whole text (`scan_tiles`). The line and the column of a token are
  counted while scanning; they are the line feeds before it and the characters since the last of
  them, and looking them up in the text leads back to the token's bytes (`token_address`). At a
  line feed the scanner starts afresh, so a text may be scanned line by line (`scan_line_by_line`).
-/

namespace ModCheck

open List
open Text (isBlank)

variable {pre : List Char} {t : Token} {ts : List Token}

/-! ## Pieces of a text -/

/-- Bytes `start` up to `stop` of a text are the characters `piece`. -/
def IsPiece (text : List Char) (start stop : Nat) (piece : List Char) : Prop :=
  ∃ pre post, text = pre ++ piece ++ post ∧ byteLength pre = start ∧
    byteLength (pre ++ piece) = stop

theorem byteLength_eq_utf8ByteSize (source : String) :
    byteLength source.toList = source.utf8ByteSize := by
  have key : ∀ cs : List Char, byteLength cs = cs.utf8Encode.size := by
    intro cs
    induction cs with
    | nil => rfl
    | cons c cs ih =>
      rw [byteLength, ih, utf8Encode_cons, utf8Encode_singleton]
      simp
  rw [key, ← String.toByteArray_ofList, String.ofList_toList]
  rfl

/-- The bytes at which the blanks before each of the tokens start: the file's first, then the end
of the token before. -/
def gapStarts (ts : List Token) : List Nat :=
  0 :: ts.map Token.endOffset

theorem Laid.isPiece_text (h : Laid pre ts) (ht : t ∈ ts) :
    IsPiece (pre ++ written ts) t.offset t.endOffset t.text.toList := by
  obtain ⟨us, vs, rfl⟩ := append_of_mem ht
  obtain ⟨-, -, offset, -⟩ := (laid_append.1 h).2
  refine ⟨pre ++ written us ++ t.lead.toList, written vs, ?_, offset.symm, ?_⟩
  · simp [written_append]
  · rw [byteLength_append, ← offset, Token.endOffset]

/-- The blanks of a token fill the text from the end of the token before. -/
theorem Laid.isPiece_lead (h : Laid pre ts) {start : Nat}
    (ht : (start, t) ∈ (byteLength pre :: ts.map Token.endOffset).zip ts) :
    IsPiece (pre ++ written ts) start t.offset t.lead.toList := by
  induction ts generalizing pre with
  | nil => exact absurd ht not_mem_nil
  | cons u us ih =>
    obtain ⟨-, -, offset, laid⟩ := h
    rw [map_cons] at ht
    rcases mem_cons.1 ht with e | ht
    · obtain ⟨rfl, rfl⟩ := Prod.mk.inj e
      exact ⟨pre, t.text.toList ++ written us, by simp, rfl, offset.symm⟩
    · have hend : u.endOffset = byteLength (pre ++ u.lead.toList ++ u.text.toList) := by
        rw [byteLength_append, ← offset, Token.endOffset]
      rw [hend] at ht
      simpa using ih laid ht

theorem Laid.pairwise_offset (h : Laid pre ts) : ts.Pairwise fun a b => a.endOffset ≤ b.offset := by
  induction ts generalizing pre with
  | nil => exact List.Pairwise.nil
  | cons t ts ih =>
    obtain ⟨-, -, offset, laid⟩ := h
    refine pairwise_cons.2 ⟨fun u hu => ?_, ih laid⟩
    obtain ⟨us, vs, rfl⟩ := append_of_mem hu
    obtain ⟨-, -, offset', -⟩ := (laid_append.1 laid).2
    rw [Token.endOffset, offset, offset', ← byteLength_append, append_assoc _ (written us),
      byteLength_append _ (written us ++ u.lead.toList)]
    exact Nat.le_add_right _ _

/-! ## The kinds of token in a file -/

theorem Lexed.mem_gap {mode : ScanMode} {ls : List Lexeme} (h : Lexed mode ls) {l : Lexeme}
    (hl : l ∈ ls) {c : Char} (hc : c ∈ l.gap) : isBlank c = true ∧ c ≠ '\n' := by
  induction h with
  | stop hgap =>
    rw [mem_singleton.1 hl] at hc
    exact mem_splitGap (by rwa [hgap])
  | cons formed ends rest ih =>
    rcases mem_cons.1 hl with rfl | hl
    · exact mem_splitGap (by rwa [formed.1])
    · exact ih hl

/-- Only the last token is the end of the file, and only it has no text. -/
theorem Lexed.exists_end {mode : ScanMode} {ls : List Lexeme} (h : Lexed mode ls) :
    ∃ init last, ls = init ++ [last] ∧ last.kind = .endOfFile ∧ last.text = [] ∧
      ∀ l ∈ init, l.kind ≠ .endOfFile ∧ l.text ≠ [] := by
  induction h with
  | @stop mode gap hgap => exact ⟨[], _, rfl, rfl, rfl, by simp⟩
  | @cons mode l ls formed ends rest ih =>
    obtain ⟨init, last, rfl, hkind, htext, hinit⟩ := ih
    refine ⟨l :: init, last, rfl, hkind, htext, fun m hm => ?_⟩
    rcases mem_cons.1 hm with rfl | hm
    · exact ⟨formed.kind_ne, formed.2.text_ne.1⟩
    · exact hinit m hm

theorem scan_exists_end (source : String) :
    ∃ init last, Token.scan source = init ++ [last] ∧ last.kind = .endOfFile ∧ last.text = "" ∧
      ∀ t ∈ init, t.kind ≠ .endOfFile ∧ t.text ≠ "" := by
  obtain ⟨init, last, e, hkind, htext, hinit⟩ := (scan_lexed source).exists_end
  obtain ⟨ts, us, hscan, rfl, hus⟩ := map_eq_append_iff.1 e
  obtain ⟨t, rfl, rfl⟩ := map_eq_singleton_iff.1 hus
  refine ⟨ts, t, hscan, hkind, String.toList_eq_nil_iff.1 htext, fun u hu => ?_⟩
  obtain ⟨hne, hnil⟩ := hinit _ (mem_map_of_mem hu)
  exact ⟨hne, fun h => hnil (String.toList_eq_nil_iff.2 h)⟩

theorem scan_lead_isBlank {source : String} (ht : t ∈ Token.scan source) {c : Char}
    (hc : c ∈ t.lead.toList) : isBlank c = true ∧ c ≠ '\n' :=
  (scan_lexed source).mem_gap (mem_map_of_mem ht) hc

/-! ## Tokens that tile a file -/

/-- Tokens that make up a file together with the blanks between them. -/
structure Tiles (source : String) (ts : List Token) : Prop where
  /-- The last token, and no other, is the end of the file; the others are not empty. -/
  ending : ∃ init last, ts = init ++ [last] ∧ last.kind = .endOfFile ∧
    last.offset = source.utf8ByteSize ∧ ∀ t ∈ init, t.kind ≠ .endOfFile ∧ t.text ≠ ""
  texts : ∀ t ∈ ts, IsPiece source.toList t.offset t.endOffset t.text.toList
  ordered : ts.Pairwise fun a b => a.endOffset ≤ b.offset
  gaps : ∀ p ∈ (gapStarts ts).zip ts, IsPiece source.toList p.1 p.2.offset p.2.lead.toList
  blank : ∀ t ∈ ts, ∀ c ∈ t.lead.toList, isBlank c = true ∧ c ≠ '\n'
  whole : (ts.flatMap fun t => t.lead.toList ++ t.text.toList) = source.toList

/-- Scanning loses nothing: blanks and tokens are the file, each where its offsets say. -/
theorem scan_tiles (source : String) : Tiles source (Token.scan source) := by
  have laid := laid_scan source
  have hwritten := written_scan source
  obtain ⟨init, last, hscan, hkind, htext, hinit⟩ := scan_exists_end source
  refine ⟨⟨init, last, hscan, hkind, ?_, hinit⟩, fun t ht => ?_, laid.pairwise_offset,
    fun p hp => ?_, fun t ht c hc => scan_lead_isBlank ht hc, hwritten⟩
  · rw [hscan] at laid hwritten
    obtain ⟨-, -, offset, -⟩ := (laid_append.1 laid).2
    rw [offset, ← byteLength_eq_utf8ByteSize, ← hwritten, written_append]
    simp [htext]
  · have := laid.isPiece_text ht
    rwa [nil_append, hwritten] at this
  · have := laid.isPiece_lead hp
    rwa [nil_append, hwritten] at this

/-! ## The place of a token -/

/-- The column counts the characters since the last line feed. -/
theorem after_column_eq (line : Nat) (cs : List Char) :
    (Position.after ⟨line, 0⟩ cs).column = (cs.rtakeWhile (· != '\n')).length := by
  induction cs using List.reverseRecOn with
  | nil => rfl
  | append_singleton cs c ih =>
    rw [Position.after_append, Position.after_cons, Position.next]
    by_cases hc : c = '\n'
    · simp [hc]
    · simp [hc, ih]

/-- A token's line and column are counted from the text before it, and both ends of a token that
a file means something by are found again at them. -/
theorem token_address (source : String) (t : Token) (ht : t ∈ Token.scan source) :
    (∃ pre post, source.toList = pre ++ post ∧ byteLength pre = t.offset ∧
      t.line = 1 + pre.count '\n' ∧
      t.start.column = (pre.rtakeWhile (· != '\n')).length) ∧
    (t.kind ≠ .newline → t.kind ≠ .comment → t.kind ≠ .endOfFile →
      Position.byteOffset? source.toList ⟨t.line, t.start.column⟩ = some t.offset ∧
      Position.byteOffset? source.toList ⟨t.line, t.endColumn⟩ = some t.endOffset) := by
  have laid := laid_scan source
  have hwritten := written_scan source
  obtain ⟨us, vs, hscan⟩ := append_of_mem ht
  rw [hscan] at laid hwritten
  obtain ⟨sane, start, offset, -⟩ := (laid_append.1 laid).2
  rw [nil_append] at start offset
  have htext : source.toList =
      written us ++ t.lead.toList ++ (t.text.toList ++ written vs) := by
    rw [← hwritten]
    simp [written_append]
  refine ⟨⟨_, _, htext, offset.symm, ?_, ?_⟩, fun hn hc he => ?_⟩
  · rw [Token.line, start, Position.after_line]
  · rw [start, after_column_eq]
  · have solid := sane.solid (TokenKind.isSolid_iff.2 ⟨hn, hc, he⟩)
    constructor
    · have := byteOffset?_after (solid.addressable_start (written us ++ t.lead.toList) (written vs))
      rwa [← start, ← offset, ← htext] at this
    · have := byteOffset?_after
        (solid.addressable_stop (written us ++ t.lead.toList) (written vs))
      rwa [Position.after_append, ← start, ← solid.stop_eq, byteLength_append, ← offset,
        append_assoc, ← htext] at this

/-- The value on the second line, behind a name of two-byte letters and a lone carriage return. -/
theorem token_address_multibyte :
    (⟨.value, "\r", "ä\rb", ⟨2, 5⟩, 9⟩ : Token) ∈ Token.scan "\r\n éé=\rä\rb\r\r\n" ∧
      Position.byteOffset? "\r\n éé=\rä\rb\r\r\n".toList ⟨2, 5⟩ = some 9 ∧
      Position.byteOffset? "\r\n éé=\rä\rb\r\r\n".toList ⟨2, 8⟩ = some 13 := by
  have ht : (⟨.value, "\r", "ä\rb", ⟨2, 5⟩, 9⟩ : Token) ∈ Token.scan "\r\n éé=\rä\rb\r\r\n" := by
    decide +kernel
  exact ⟨ht, (token_address _ _ ht).2 (by decide) (by decide) (by decide)⟩

/-! ## A text line by line -/

/-- A line break cuts a text in two that are read each on its own, whatever the first of them ends
in: its end becomes the token of the break, and the second stands further down and further on. A
carriage return before the break would belong to the break. -/
theorem scan_line_by_line (s₁ s₂ : String) (h : s₁.toList.getLast? ≠ some '\r') :
    ∃ ts e, Token.scan s₁ = ts ++ [e] ∧ e.kind = .endOfFile ∧
      (∀ t ∈ ts, t.kind ≠ .endOfFile) ∧
      Token.scan (s₁ ++ "\n" ++ s₂) =
        ts ++ { e with kind := .newline, text := "\n" } ::
          (Token.scan s₂).map (Token.moved (s₁.toList.count '\n' + 1) (s₁.utf8ByteSize + 1)) := by
  have breaks : BreaksAfter s₁.toList ['\n'] := Or.inl ⟨rfl, h⟩
  obtain ⟨ts, e, hts, he, first, all⟩ := scan_append_break breaks s₂.toList
  have joined : s₁ ++ "\n" ++ s₂ = String.ofList (s₁.toList ++ (['\n'] ++ s₂.toList)) := by
    apply String.toList_injective
    simp
  have bytes : byteLength (s₁.toList ++ ['\n']) = s₁.utf8ByteSize + 1 := by
    rw [byteLength_append, byteLength_eq_utf8ByteSize]
    rfl
  rw [String.ofList_toList] at first
  rw [String.ofList_toList, bytes, ← joined] at all
  exact ⟨ts, e, first, he, hts, all⟩

/-- A first text that ends behind an equals sign, where a value could start, and a second that
starts with what would be one. -/
theorem scan_line_by_line_open_value :
    "[é]\n\rk =\t".toList.getLast? ≠ some '\r' ∧
      ∃ ts e, Token.scan "[é]\n\rk =\t" = ts ++ [e] ∧ e.kind = .endOfFile ∧
        (∀ t ∈ ts, t.kind ≠ .endOfFile) ∧
        Token.scan ("[é]\n\rk =\t" ++ "\n" ++ " -- v\r\nj = 1;") =
          ts ++ { e with kind := .newline, text := "\n" } ::
            (Token.scan " -- v\r\nj = 1;").map (Token.moved 2 11) := by
  have hlast : "[é]\n\rk =\t".toList.getLast? ≠ some '\r' := by decide
  exact ⟨hlast, scan_line_by_line _ _ hlast⟩

end ModCheck
