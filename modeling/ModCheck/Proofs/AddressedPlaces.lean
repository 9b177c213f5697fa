import Mathlib.Data.List.DropRight
import ModCheck.Proofs.Substitution

/-
  Which places have a byte offset, and which offset it is. The lines of a text are what stands
  between its line feeds. A place has an offset exactly if the text has such a line and the line,
  without the carriage returns at its end, is long enough (`isSome_byteOffset?_iff`). The offset
  splits the text between two characters, behind as many characters of the line as the place says
  (`splitAt_of_byteOffset?`), and offsets come in the order of places. Main statement:
  `places_addressed_in_order`.
-/

namespace ModCheck

open List

variable {source : String} {text : List Char} {p q : Position} {o o' : Nat}

/-! ## Lines -/

theorem length_splitOn (text : List Char) :
    (text.splitOn '\n').length = text.count '\n' + 1 := by
  induction text with
  | nil => rfl
  | cons c cs ih =>
    rw [splitOn_cons_eq_if_modifyHead, List.count_cons]
    split
    · rw [length_cons, ih]
    · rw [length_modifyHead, ih]

theorem splitOn_eq_cons (text : List Char) :
    text.splitOn '\n' = text.takeWhile (· != '\n') ::
      match text.dropWhile (· != '\n') with
      | [] => []
      | _ :: rest => rest.splitOn '\n' := by
  induction text with
  | nil => rfl
  | cons c cs ih =>
    rw [splitOn_cons_eq_if_modifyHead, ih]
    by_cases h : c = '\n'
    · simp [h, ih]
    · simp [h]

/-- Behind the line feeds that are skipped comes the line with their number. -/
theorem takeWhile_skipLines (k : Nat) (text : List Char) :
    (skipLines k text).map (List.takeWhile (· != '\n')) = (text.splitOn '\n')[k]? := by
  induction k generalizing text with
  | zero =>
    rw [splitOn_eq_cons]
    rfl
  | succ k ih =>
    rw [skipLines, splitOn_eq_cons]
    cases text.dropWhile (· != '\n') with
    | nil => rfl
    | cons c rest => exact ih rest

/-- What stands before the last line of a text ends with a line feed, if it is not empty. -/
theorem exists_lineTail (text : List Char) :
    ∃ start, text = start ++ lineTail text ∧ (start = [] ∨ start.getLast? = some '\n') := by
  induction text with
  | nil => exact ⟨[], rfl, .inl rfl⟩
  | cons c cs ih =>
    obtain ⟨start, e, last⟩ := ih
    rw [lineTail]
    split
    · next mem =>
      refine ⟨c :: start, congrArg (c :: ·) e, .inr ?_⟩
      rcases last with rfl | last
      · -- the rest is a line, so the line feed comes first
        have rest : '\n' ∉ cs := by
          rw [e]
          exact not_mem_lineTail cs
        rw [(mem_cons.1 mem).resolve_right rest]
        rfl
      · rw [getLast?_cons, last]
        rfl
    · exact ⟨[], rfl, .inl rfl⟩

/-! ## Offsets -/

/-- The place `p` is on a line of the text and not behind the carriage returns at its end. -/
structure OnLine (text : List Char) (p : Position) : Prop where
  first : 1 ≤ p.line
  last : p.line ≤ text.count '\n' + 1
  inside : ∃ line, (text.splitOn '\n')[p.line - 1]? = some line ∧
    p.column ≤ (line.rdropWhile (· == '\r')).length

theorem isSome_byteOffset?_iff : (p.byteOffset? text).isSome = true ↔ OnLine text p := by
  have onLine : OnLine text p ↔ p.line ≠ 0 ∧
      ∃ rest, skipLines (p.line - 1) text = some rest ∧ p.column ≤ (firstLine rest).length := by
    constructor
    · rintro ⟨first, -, line, found, inside⟩
      rw [← takeWhile_skipLines] at found
      obtain ⟨rest, skipped, rfl⟩ := Option.map_eq_some_iff.1 found
      exact ⟨Nat.pos_iff_ne_zero.1 first, rest, skipped, inside⟩
    · rintro ⟨ne, rest, skipped, inside⟩
      have found := takeWhile_skipLines (p.line - 1) text
      rw [skipped] at found
      have bound := (List.getElem?_eq_some_iff.1 found.symm).1
      rw [length_splitOn] at bound
      exact ⟨Nat.pos_iff_ne_zero.2 ne, by omega, _, found.symm, inside⟩
  rw [onLine, Position.byteOffset?, Position.index?]
  by_cases zero : p.line = 0
  · simp [zero]
  · rw [if_neg (by simpa using zero)]
    cases skipLines (p.line - 1) text with
    | none => simp
    | some rest => simp [zero]

theorem utf8ByteSize_ofList (cs : List Char) : (String.ofList cs).utf8ByteSize = byteLength cs := by
  induction cs with
  | nil => rfl
  | cons c cs ih => simp [byteLength, ← ih]

/-- The text is split at `o` bytes, on the line of `p` and behind as many of its characters as the
column of `p` says. -/
def SplitAt (source : String) (p : Position) (o : Nat) : Prop :=
  ∃ start line rest : String, source = start ++ line ++ rest ∧ (start ++ line).utf8ByteSize = o ∧
    (start = "" ∨ start.toList.getLast? = some '\n') ∧ '\n' ∉ line.toList ∧
    start.toList.count '\n' = p.line - 1 ∧ line.length = p.column

theorem splitAt_of_byteOffset? (h : p.byteOffset? source.toList = some o) : SplitAt source p o := by
  obtain ⟨n, index, rfl⟩ := Option.map_eq_some_iff.1 h
  have spot := spot_of_index? index
  obtain ⟨start, e, last⟩ := exists_lineTail (source.toList.take n)
  have plain := not_mem_lineTail (source.toList.take n)
  refine ⟨.ofList start, .ofList (lineTail (source.toList.take n)), .ofList (source.toList.drop n),
    ?_, ?_, ?_, ?_, ?_, ?_⟩
  · rw [← String.ofList_append, ← e, ← String.ofList_append, take_append_drop, String.ofList_toList]
  · rw [← String.ofList_append, ← e, utf8ByteSize_ofList]
  · exact last.imp (by rintro rfl; rfl) (by simp)
  · simpa using plain
  · have line := Position.after_line ⟨1, 0⟩ (source.toList.take n)
    rw [e, count_append, count_eq_zero.2 plain, ← e, ← spot.place] at line
    simp [line]
  · rw [String.length_ofList, spot.place, after_column]

theorem byteOffset?_lt_iff (hp : p.byteOffset? text = some o) (hq : q.byteOffset? text = some o') :
    o < o' ↔ p < q := by
  obtain ⟨n, left, rfl⟩ := Option.map_eq_some_iff.1 hp
  obtain ⟨m, right, rfl⟩ := Option.map_eq_some_iff.1 hq
  replace left := spot_of_index? left
  replace right := spot_of_index? right
  rw [byteLength_take_lt text n right.bound]
  refine ⟨fun h => ?_, left.lt right⟩
  rw [left.place, right.place]
  exact Position.after_take_lt _ text h (h.trans_le right.bound)

/-- A place has an offset exactly if it is on a line of the text, and not behind the carriage
returns at its end. The offset is where the text is split on this line, and it is less than another
one exactly if the place comes before the other. -/
theorem places_addressed_in_order (source : String) :
    (∀ p : Position, (∃ o, p.byteOffset? source.toList = some o) ↔ OnLine source.toList p) ∧
    (∀ (p : Position) (o : Nat), p.byteOffset? source.toList = some o → SplitAt source p o) ∧
    ∀ (p q : Position) (o o' : Nat), p.byteOffset? source.toList = some o →
      q.byteOffset? source.toList = some o' →
      (o < o' ↔ p.line < q.line ∨ p.line = q.line ∧ p.column < q.column) := by
  refine ⟨fun p => ?_, fun p o => splitAt_of_byteOffset?, fun p q o o' hp hq => ?_⟩
  · rw [← Option.isSome_iff_exists, isSome_byteOffset?_iff]
  · rw [byteOffset?_lt_iff hp hq, Position.lt_iff]

/-- Behind a letter of two bytes, and at the end of a line before its carriage returns. -/
theorem places_addressed_in_order_umlaut :
    (Position.mk 2 6).byteOffset? "[A]\nkey=välue\r\r\n".toList = some 11 ∧
      (Position.mk 2 9).byteOffset? "[A]\nkey=välue\r\r\n".toList = some 14 ∧
      SplitAt "[A]\nkey=välue\r\r\n" ⟨2, 6⟩ 11 ∧ (11 < 14 ↔ 2 < 2 ∨ 2 = 2 ∧ 6 < 9) := by
  have first : (Position.mk 2 6).byteOffset? "[A]\nkey=välue\r\r\n".toList = some 11 := by decide
  have second : (Position.mk 2 9).byteOffset? "[A]\nkey=välue\r\r\n".toList = some 14 := by decide
  obtain ⟨-, split, order⟩ := places_addressed_in_order "[A]\nkey=välue\r\r\n"
  exact ⟨first, second, split _ _ first, order _ _ _ _ first second⟩

end ModCheck
