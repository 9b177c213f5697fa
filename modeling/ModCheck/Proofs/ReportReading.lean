import Mathlib.Algebra.Group.Nat.Defs
import ModCheck.Proofs.JsonText
import ModCheck.Report

/-
  Reports as JSON, read back. A record is written as an object with some of its fields left out;
  `slots?_ofEntries` says which slots are found in it again, whatever the record, and `list_read`
  does the same for lists. With that each kind of record is read back from what is written for it,
  and a whole report from either form of its text (`report_read_back`).
-/

namespace ModCheck

open List
open Json (Reader Slot Plain)

namespace Json

/-! ## Records -/

/-- An object with those of its fields that have a value. -/
def ofEntries (entries : List (String × Option Json)) : Json :=
  .ofFields (entries.flatMap fun e => optionalField e.1 e.2)

/-- What is found for a field. -/
def Slot.ofOption : Option Json → Slot
  | some value => .given value
  | none => .absent

theorem plain_ofEntries (entries : List (String × Option Json))
    (h : ∀ e ∈ entries, ∀ value ∈ e.2, Plain value) : Plain (ofEntries entries) := by
  refine .object fun f hf => ?_
  obtain ⟨e, he, hf⟩ := mem_flatMap.1 hf
  obtain ⟨value, hv, rfl⟩ := mem_map.1 hf
  exact h e he value (Option.mem_toList.1 hv)

theorem filter_optionalField (key : String) (e : String × Option Json) :
    (optionalField e.1 e.2).filter (·.1 == key) =
      if e.1 = key then optionalField e.1 e.2 else [] := by
  obtain ⟨k, _ | value⟩ := e
  · simp [optionalField]
  · simp [optionalField, filter_cons]

/-- Of fields with different keys only one has a given key. -/
theorem filter_entries {entries : List (String × Option Json)}
    (h : (entries.map (·.1)).Nodup) {e : String × Option Json} (he : e ∈ entries) :
    (entries.flatMap fun e => optionalField e.1 e.2).filter (·.1 == e.1) =
      optionalField e.1 e.2 := by
  induction entries with
  | nil => simp at he
  | cons e' entries ih =>
    obtain ⟨absent, distinct⟩ := nodup_cons.1 h
    rw [flatMap_cons, filter_append, filter_optionalField]
    rcases mem_cons.1 he with rfl | he
    · have none : (entries.flatMap fun e => optionalField e.1 e.2).filter (·.1 == e.1) = [] := by
        rw [filter_flatMap, flatMap_eq_nil_iff]
        intro e' he'
        rw [filter_optionalField, if_neg]
        exact fun same => absent (mem_map.2 ⟨e', he', same⟩)
      rw [if_pos rfl, none, append_nil]
    · rw [ih distinct he, if_neg, nil_append]
      exact fun same => absent (mem_map.2 ⟨e, he, same.symm⟩)

theorem slotOf?_ofEntries {entries : List (String × Option Json)}
    (h : (entries.map (·.1)).Nodup) {e : String × Option Json} (he : e ∈ entries) :
    slotOf? ((entries.flatMap fun e => optionalField e.1 e.2).map fun f => (some f.1, f.2)) [e.1] =
      some (Slot.ofOption e.2) := by
  have found : ((entries.flatMap fun e => optionalField e.1 e.2).map
        fun f => (some f.1, f.2)).filter (fun f => f.1.any [e.1].contains) =
      (optionalField e.1 e.2).map fun f => (some f.1, f.2) := by
    rw [filter_map, ← filter_entries h he]
    congr 2
    funext f
    exact Bool.eq_iff_iff.2 (by simp)
  rw [slotOf?, found]
  cases e.2 <;> rfl

theorem mapM_some {α β : Type} {f : α → Option β} {g : α → β} {xs : List α}
    (h : ∀ x ∈ xs, f x = some (g x)) : xs.mapM f = some (xs.map g) := by
  induction xs with
  | nil => rfl
  | cons x xs ih =>
    obtain ⟨first, rest⟩ := forall_mem_cons.1 h
    rw [mapM_cons, first, ih rest]
    rfl

/-- The slots of a record are those of its fields. -/
theorem slots?_ofEntries {entries : List (String × Option Json)}
    (h : (entries.map (·.1)).Nodup) :
    slots? (entries.map fun e => [e.1]) (ofEntries entries) =
      some (entries.map fun e => Slot.ofOption e.2) := by
  rw [ofEntries, ofFields, slots?, if_pos (by simp), mapM_map]
  exact mapM_some fun e he => slotOf?_ofEntries h he

theorem record_ofEntries {α : Type} (entries : List (String × Option Json))
    (h : (entries.map (·.1)).Nodup) (build : Nat → List Slot → Option α) (room : Nat) :
    record (entries.map fun e => [e.1]) build (room + 1) (ofEntries entries) =
      build room (entries.map fun e => Slot.ofOption e.2) := by
  rw [record, slots?_ofEntries h]
  rfl

/-! ## Lists -/

theorem list_read {α : Type} {read : Reader α} {write : α → Json} {room : Nat} {xs : List α}
    (h : ∀ x ∈ xs, read room (write x) = some x) :
    list read (room + 1) (.array (xs.map write)) = some xs := by
  rw [list, mapM_map]
  have all := mapM_some (g := id) h
  rwa [map_id] at all

end Json

/-! ## Fields -/

section

variable {α : Type} {read : Reader α} {write : α → Json} {room : Nat}

theorem required_read (value : Json) :
    (Slot.ofOption (some value)).required read room = read room value :=
  rfl

theorem optional_read {value : Option α} (h : ∀ x ∈ value, read room (write x) = some x)
    (hnull : ∀ x, write x ≠ .null) :
    (Slot.ofOption (value.map write)).optional read room = some value := by
  cases value with
  | none => rfl
  | some x =>
    rw [Option.map_some, Slot.ofOption, Slot.optional, Json.nullable, h x rfl]
    · rfl
    · exact hnull x

/-- A list as the value of a field, which is left out when it is empty. -/
def listEntry (items : List Json) : Option Json :=
  if items.isEmpty then none else some (.array items)

theorem orElse_read {xs : List α} (h : ∀ x ∈ xs, read room (write x) = some x) :
    (Slot.ofOption (listEntry (xs.map write))).orElse [] (Json.list read) (room + 1) = some xs := by
  cases xs with
  | nil => rfl
  | cons x xs => exact Json.list_read h

theorem natural_read {n : Nat} (h : n < 2 ^ 64) : Json.natural room (.ofNat n) = some n := by
  simpa [Json.natural, Json.ofNat] using h

end

/-! ## Records of a report -/

/-- The numbers of a span fit into 64 bits. -/
structure Span.Fits (s : Span) : Prop where
  startLine : s.start.line < 2 ^ 64
  startColumn : s.start.column < 2 ^ 64
  endLine : s.stop.line < 2 ^ 64
  endColumn : s.stop.column < 2 ^ 64

theorem Span.Fits.ofSlots {s : Span} (h : s.Fits) (room : Nat) :
    Span.ofSlots (.given (.ofNat s.start.line)) (.given (.ofNat s.start.column))
      (.given (.ofNat s.stop.line)) (.given (.ofNat s.stop.column)) room = some s := by
  simp only [Span.ofSlots, Slot.required, natural_read h.startLine, natural_read h.startColumn,
    natural_read h.endLine, natural_read h.endColumn]
  rfl

def Span.entries (s : Span) : List (String × Option Json) :=
  [("start_line", some (.ofNat s.start.line)), ("start_column", some (.ofNat s.start.column)),
    ("end_line", some (.ofNat s.stop.line)), ("end_column", some (.ofNat s.stop.column))]

theorem Span.Fits.read {s : Span} (h : s.Fits) (room : Nat) :
    Span.read (room + 1) s.toJson = some s :=
  (Json.record_ofEntries s.entries (by simp [Span.entries]) _ room).trans (h.ofSlots room)

def Correction.entries (c : Correction) : List (String × Option Json) :=
  [("file", some (.ofString c.file)),
    ("startLine", some (.ofNat c.span.start.line)),
    ("startColumn", some (.ofNat c.span.start.column)),
    ("endLine", some (.ofNat c.span.stop.line)), ("endColumn", some (.ofNat c.span.stop.column)),
    ("replacement", some (.ofString c.replacement))]

theorem Correction.read_toJson {c : Correction} (h : c.span.Fits) (room : Nat) :
    Correction.read (room + 1) c.toJson = some c := by
  refine (Json.record_ofEntries c.entries (by simp [Correction.entries]) _ room).trans ?_
  simp [Correction.entries, Slot.ofOption, h.ofSlots, Slot.required, Json.text, Json.ofString]

def RelatedLine.entries (r : RelatedLine) : List (String × Option Json) :=
  [("file", some (.ofString r.file)), ("line", some (.ofNat r.line))]

theorem RelatedLine.read_toJson {r : RelatedLine} (h : r.line < 2 ^ 64) (room : Nat) :
    RelatedLine.read (room + 1) r.toJson = some r := by
  refine (Json.record_ofEntries r.entries (by simp [RelatedLine.entries]) _ room).trans ?_
  simp [RelatedLine.entries, Slot.ofOption, Slot.required, Json.text, Json.ofString, natural_read h]

/-- The numbers of a message fit into 64 bits. -/
structure Message.Fits (m : Message) : Prop where
  line : m.line < 2 ^ 64
  span : ∀ s ∈ m.span, s.Fits
  corrections : ∀ c ∈ m.corrections, c.span.Fits
  related : ∀ r ∈ m.related, r.line < 2 ^ 64

def Message.entries (m : Message) : List (String × Option Json) :=
  [("severity", some (.ofString m.severity.label)), ("code", some (.ofString m.code)),
    ("message", some (.ofString m.text)), ("file", some (.ofString m.file)),
    ("line", some (.ofNat m.line)), ("span", m.span.map (·.toJson)),
    ("context", m.context.map .ofString), ("suggestion", m.suggestion.map .ofString),
    ("corrections", listEntry (m.corrections.map (·.toJson))),
    ("formulaReference", m.formulaReference.map .ofString),
    ("documentationUrl", m.documentationUrl.map .ofString),
    ("crossFile", some (.bool m.crossFile)),
    ("related", listEntry (m.related.map (·.toJson)))]

theorem listField_eq (key : String) (items : List Json) :
    listField key items = optionalField key (listEntry items) := by
  unfold listField listEntry
  split <;> rfl

theorem Message.toJson_eq (m : Message) : m.toJson = .ofEntries m.entries := by
  simp [Message.toJson, Json.ofEntries, Message.entries, listField_eq, optionalField]

theorem Message.Fits.read {m : Message} (h : m.Fits) (room : Nat) :
    Message.read (room + 3) m.toJson = some m := by
  rw [m.toJson_eq]
  refine (Json.record_ofEntries m.entries (by simp [Message.entries]) _ (room + 2)).trans ?_
  have label : Severity.read (room + 2) (.ofString m.severity.label) = some m.severity := by
    cases m.severity <;> rfl
  have span := optional_read (fun s hs => (h.span s hs).read (room + 1))
    (by simp [Span.toJson, Json.ofFields])
  have text (t : Option String) :
      (Slot.ofOption (t.map .ofString)).optional Json.text (room + 2) = some t :=
    optional_read (fun _ _ => rfl) (by simp [Json.ofString])
  have corrections := orElse_read fun c hc => Correction.read_toJson (h.corrections c hc) room
  have related := orElse_read fun r hr => RelatedLine.read_toJson (h.related r hr) room
  simp only [Message.entries, map_cons, map_nil, required_read, label,
    natural_read h.line, span, text, corrections, related]
  rfl

/-! ## Texts of a report -/

theorem plain_map {α : Type} {write : α → Json} (h : ∀ x, Plain (write x)) (value : Option α) :
    ∀ j ∈ value.map write, Plain j := by
  intro j hj
  obtain ⟨x, -, rfl⟩ := Option.map_eq_some_iff.1 hj
  exact h x

theorem plain_listEntry {α : Type} {write : α → Json} (h : ∀ x, Plain (write x)) (xs : List α) :
    ∀ j ∈ listEntry (xs.map write), Plain j := by
  intro j hj
  rw [← Option.some.inj (Option.ite_none_left_eq_some.1 hj).2]
  exact .array (forall_mem_map.2 fun x _ => h x)

/-- What a message is written as holds whole numbers and texts only. -/
theorem Message.plain_toJson (m : Message) : Plain m.toJson := by
  have span (s : Span) : Plain s.toJson :=
    Json.plain_ofEntries s.entries (by simp [Span.entries, Plain.natural])
  have correction (c : Correction) : Plain c.toJson :=
    Json.plain_ofEntries c.entries (by simp [Correction.entries, Plain.natural, Plain.string])
  have related (r : RelatedLine) : Plain r.toJson :=
    Json.plain_ofEntries r.entries (by simp [RelatedLine.entries, Plain.natural, Plain.string])
  rw [m.toJson_eq]
  refine Json.plain_ofEntries m.entries ?_
  simp only [Message.entries, forall_mem_cons, not_mem_nil, false_imp_iff, forall_const,
    and_true, Option.mem_def, Option.some.injEq, forall_eq']
  exact ⟨.string _, .string _, .string _, .string _, .natural _, plain_map span _,
    plain_map .string _, plain_map .string _, plain_listEntry correction _, plain_map .string _,
    plain_map .string _, .bool _, plain_listEntry related _⟩

theorem plain_messagesJson (messages : List Message) : Plain (Report.messagesJson messages) :=
  .array (forall_mem_map.2 fun m _ => m.plain_toJson)

theorem read_messagesJson {messages : List Message} (h : ∀ m ∈ messages, m.Fits) :
    Json.list Message.read Json.maxDepth (Report.messagesJson messages) = some messages :=
  Json.list_read fun m hm => (h m hm).read 123

/-- A report in either form of JSON is read back as the messages it was made of. -/
theorem report_read_back (messages : List Message) (files : List SourceFile)
    (h : ∀ m ∈ messages, m.Fits) :
    (Json.list Message.read).ofText? (Report.renderList .json messages files) = some messages ∧
      (Json.list Message.read).ofText? (Report.renderList .prettyJson messages files) =
        some messages := by
  have plain := plain_messagesJson messages
  rw [Report.renderList, Report.renderList, Reader.ofText?, Reader.ofText?,
    Json.parse?_toCompact plain, Json.parse?_toPretty plain]
  exact ⟨read_messagesJson h, read_messagesJson h⟩

/-- A message with characters that are escaped, the largest number and several lists. -/
def crowdedMessage : Message :=
  { severity := .hint, code := "a\x22b\x5cc", text := "\x01é\n😀", file := ""
    line := 18446744073709551615, span := some ⟨⟨1, 0⟩, ⟨2, 3⟩⟩, suggestion := some "\t"
    corrections := [⟨"f", ⟨⟨1, 0⟩, ⟨1, 0⟩⟩, "\x7f"⟩, ⟨"f", ⟨⟨2, 1⟩, ⟨2, 4⟩⟩, ""⟩]
    crossFile := true, related := [⟨"g", 7⟩] }

/-- The crowded message, next to one that has nothing but what it needs. -/
theorem report_read_back_crowded :
    let bare : Message := ⟨.error, "c", "", "f", 0, none, none, none, [], none, none, false, []⟩
    (∀ m ∈ [crowdedMessage, bare], m.Fits) ∧
      (Json.list Message.read).ofText? (Report.renderList .json [crowdedMessage, bare] []) =
        some [crowdedMessage, bare] := by
  intro bare
  have fits : ∀ m ∈ [crowdedMessage, bare], m.Fits := by
    refine forall_mem_cons.2 ⟨⟨by decide, ?_, ?_, by decide⟩, forall_mem_singleton.2 ?_⟩
    · rintro s ⟨⟩
      exact ⟨by decide, by decide, by decide, by decide⟩
    · intro c hc
      simp only [crowdedMessage, mem_cons, List.not_mem_nil, or_false] at hc
      rcases hc with rfl | rfl
      · exact ⟨by decide, by decide, by decide, by decide⟩
      · exact ⟨by decide, by decide, by decide, by decide⟩
    · exact ⟨by decide, by simp [bare], by simp [bare], by simp [bare]⟩
  exact ⟨fits, (report_read_back _ _ fits).1⟩

end ModCheck
