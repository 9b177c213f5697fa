import ModCheck.Proofs.Substitution
import ModCheck.Proofs.ValueFix
import ModCheck.Report.Frame

/-
  What the preview of a correction shows, against what the correction makes of the text. The preview
  changes a line that has lost its ending; the correction changes the text, and the line is looked
  up afterwards. Both agree unless the correction takes out all that stands between a carriage
  return and a line feed (`JoinsReturn`): the two then end the line together, while the preview
  still shows the carriage return. Main statement: `preview_shows_line`.
-/

namespace ModCheck

open List
open Report

variable {cs : List Char}

/-! ## Lines without their endings -/

/-- The first line of a text without its ending, which is a line feed or a carriage return and a
line feed. -/
def lineContent : List Char → List Char
  | [] => []
  | '\n' :: _ => []
  | '\r' :: '\n' :: _ => []
  | c :: cs => c :: lineContent cs

/-- The `n`-th line of a text without its ending. Lines are counted from one, as places do. -/
def lineAt? (n : Nat) (text : List Char) : Option (List Char) :=
  (skipLines (n - 1) text).map lineContent

theorem lineContent_cons {c : Char} (hc : c ≠ '\n')
    (h : c = '\r' → cs.head? ≠ some '\n') : lineContent (c :: cs) = c :: lineContent cs := by
  rw [lineContent]
  · exact hc
  · rintro more rfl rfl
    exact h rfl rfl

theorem lineContent_of_not_mem (h : '\n' ∉ cs) : lineContent cs = cs := by
  induction cs with
  | nil => rfl
  | cons c cs ih =>
    obtain ⟨hc, hcs⟩ := ne_and_not_mem_of_not_mem_cons h
    rw [lineContent_cons (Ne.symm hc) fun _ e => hcs (mem_of_mem_head? e), ih hcs]

theorem lineContent_newline (h : '\n' ∉ cs) (hlast : cs.getLast? ≠ some '\r')
    (more : List Char) : lineContent (cs ++ '\n' :: more) = cs := by
  induction cs with
  | nil => rfl
  | cons c cs ih =>
    obtain ⟨hc, hcs⟩ := ne_and_not_mem_of_not_mem_cons h
    cases cs with
    | nil => exact lineContent_cons (Ne.symm hc) fun hr => absurd (congrArg some hr) hlast
    | cons d ds =>
      have hd : d ≠ '\n' := fun e => hcs (e ▸ mem_cons_self)
      rw [cons_append, lineContent_cons (Ne.symm hc) fun _ => by simpa using hd,
        ih hcs (by simpa using hlast)]

theorem lineContent_return_newline (h : '\n' ∉ cs) (more : List Char) :
    lineContent (cs ++ '\r' :: '\n' :: more) = cs := by
  induction cs with
  | nil => rfl
  | cons c cs ih =>
    obtain ⟨hc, hcs⟩ := ne_and_not_mem_of_not_mem_cons h
    have hnext : (cs ++ '\r' :: '\n' :: more).head? ≠ some '\n' := by
      cases cs with
      | nil => simp
      | cons d ds => simpa using fun e : d = '\n' => hcs (e ▸ mem_cons_self)
    rw [cons_append, lineContent_cons (Ne.symm hc) fun _ => hnext, ih hcs]

/-- The lines of a text are its first line and the lines behind its first line feed. -/
theorem lines_eq_cons (h : cs ≠ []) :
    Text.lines cs = lineContent cs :: Text.lines (cs.dropWhile (· != '\n')).tail := by
  fun_induction Text.lines cs with
  | case1 => exact absurd rfl h
  | case2 cs => simp [lineContent]
  | case3 cs => simp [lineContent]
  | case4 c cs hc hreturn hnil ih =>
    have hcs : cs = [] := by
      by_contra hcs
      rw [ih hcs] at hnil
      cases hnil
    subst hcs
    rw [lineContent_of_not_mem (by simpa using Ne.symm hc),
      dropWhile_cons_of_pos (by simpa using hc)]
    rfl
  | case5 c cs hc hreturn line rest hlines ih =>
    have hcs : cs ≠ [] := by
      rintro rfl
      cases hlines
    have hnext : c = '\r' → cs.head? ≠ some '\n' := by
      intro hr hhead
      obtain ⟨more, rfl⟩ := head?_eq_some_iff.1 hhead
      exact hreturn more hr rfl
    obtain ⟨hline, hrest⟩ := cons.inj (hlines.symm.trans (ih hcs))
    rw [lineContent_cons hc hnext, dropWhile_cons_of_pos (by simpa using hc), hline, hrest]

theorem getElem?_lines {k : Nat} {cs rest : List Char} (h : skipLines k cs = some rest) :
    (Text.lines cs)[k]? = if rest = [] then none else some (lineContent rest) := by
  induction k generalizing cs with
  | zero =>
    obtain rfl := Option.some.inj h
    by_cases hcs : cs = []
    · rw [hcs]
      rfl
    · rw [if_neg hcs, lines_eq_cons hcs]
      rfl
  | succ k ih =>
    rw [skipLines] at h
    cases hdrop : cs.dropWhile (· != '\n') with
    | nil => simp [hdrop] at h
    | cons c after =>
      have hcs : cs ≠ [] := by
        rintro rfl
        simp at hdrop
      rw [lines_eq_cons hcs, hdrop]
      rw [hdrop] at h
      exact ih h

/-! ## A line and what stands around it -/

/-- A line of a text and what stands around it: the text before it, the line up to the carriage
returns at its end, how many those are, and what follows them. -/
structure LineParts where
  number : Nat
  front : List Char
  body : List Char
  returns : Nat
  back : List Char
  start : Position.after ⟨1, 0⟩ front = ⟨number, 0⟩
  front_last : front.getLast? ≠ some '\r'
  one_line : '\n' ∉ body
  body_last : body.getLast? ≠ some '\r'
  back_head : back = [] ∨ ∃ more, back = '\n' :: more

namespace LineParts

variable (parts : LineParts)

/-- The text with something else in the place of the line. -/
def text (line : List Char) : List Char :=
  parts.front ++ (line ++ (replicate parts.returns '\r' ++ parts.back))

/-- The carriage returns at the end of a line that are not part of its ending. -/
def kept : List Char :=
  match parts.back with
  | [] => replicate parts.returns '\r'
  | _ :: _ => replicate (parts.returns - 1) '\r'

theorem skipLines_text (line : List Char) : skipLines (parts.number - 1) (parts.text line) =
    some (line ++ (replicate parts.returns '\r' ++ parts.back)) := by
  have hline := Position.after_line ⟨1, 0⟩ parts.front
  have hcolumn := after_column 1 parts.front
  rw [parts.start] at hline hcolumn
  have hcount : parts.number - 1 = parts.front.count '\n' := by
    dsimp only at hline
    omega
  rw [text, hcount, skipLines_count, length_eq_zero_iff.1 hcolumn.symm, nil_append]

theorem lineAt?_text (line : List Char) : lineAt? parts.number (parts.text line) =
    some (lineContent (line ++ (replicate parts.returns '\r' ++ parts.back))) := by
  rw [lineAt?, parts.skipLines_text, Option.map_some]

/-- The line has its ending dropped, unless the last carriage return before the line feed is one
of the line put in. -/
theorem lineContent_eq {line : List Char} (h : '\n' ∉ line)
    (hlast : parts.returns = 0 → parts.back ≠ [] → line.getLast? ≠ some '\r') :
    lineContent (line ++ (replicate parts.returns '\r' ++ parts.back)) = line ++ parts.kept := by
  have hplain : ∀ k, '\n' ∉ line ++ replicate k '\r' := by
    simp [h]
  rw [kept]
  rcases parts.back_head with hback | ⟨more, hback⟩
  · rw [hback, append_nil]
    exact lineContent_of_not_mem (hplain _)
  · rw [hback, ← append_assoc]
    cases hreturns : parts.returns with
    | zero =>
      rw [replicate_zero, append_nil]
      exact lineContent_newline h (hlast hreturns (by simp [hback])) more
    | succ k =>
      rw [replicate_succ', ← append_assoc, append_assoc]
      exact lineContent_return_newline (hplain k) more

theorem after_take {column : Nat} (h : column ≤ parts.body.length) :
    Position.after ⟨1, 0⟩ (parts.front ++ parts.body.take column) = ⟨parts.number, column⟩ := by
  have hplain : '\n' ∉ parts.body.take column := fun hmem =>
    parts.one_line (mem_of_mem_take hmem)
  rw [Position.after_append, parts.start, Position.after_of_not_mem _ hplain, length_take,
    Nat.min_eq_left h, Nat.zero_add]

theorem front_body_last : (parts.front ++ parts.body).getLast? ≠ some '\r' := by
  rw [getLast?_append]
  cases hlast : parts.body.getLast? with
  | none => simpa using parts.front_last
  | some c => simpa [hlast] using parts.body_last

theorem index?_text {p : Position} (hline : p.line = parts.number)
    (h : p.column ≤ parts.body.length) :
    p.index? (parts.text parts.body) = some (parts.front.length + p.column) := by
  have hplace : Position.after ⟨1, 0⟩ (parts.front ++ parts.body.take p.column) = p := by
    rw [parts.after_take h, ← hline]
  have hsplit : parts.front ++ parts.body.take p.column ++
      (parts.body.drop p.column ++ (replicate parts.returns '\r' ++ parts.back)) =
        parts.text parts.body := by
    rw [append_assoc, ← append_assoc (List.take _ _), take_append_drop, text]
  have hfound := index?_after (addressable_in_line parts.one_line parts.front_body_last p.column
    (replicate parts.returns '\r' ++ parts.back))
  rwa [hsplit, hplace, length_append, length_take, Nat.min_eq_left h] at hfound

theorem one_line_replace {new : List Char} (hnew : '\n' ∉ new) (r : CharRange) :
    '\n' ∉ r.replace new parts.body := by
  simp only [CharRange.replace, mem_append, not_or]
  exact ⟨fun hmem => parts.one_line (mem_of_mem_take hmem), hnew,
    fun hmem => parts.one_line (mem_of_mem_drop hmem)⟩

/-- A line changed on a range ends in a carriage return just if this stood before the range and
the range is taken out up to the end. -/
theorem getLast?_replace {new : List Char} (hnew : '\r' ∉ new) (r : CharRange) :
    (r.replace new parts.body).getLast? = some '\r' ↔
      new = [] ∧ (parts.body.take r.start).getLast? = some '\r' ∧ parts.body.drop r.stop = [] := by
  rw [CharRange.replace, getLast?_append, getLast?_append]
  cases hdrop : (parts.body.drop r.stop).getLast? with
  | some x =>
    have hx : x ≠ '\r' := by
      rintro rfl
      apply parts.body_last
      rw [← take_append_drop r.stop parts.body, getLast?_append, hdrop]
      rfl
    have hne : parts.body.drop r.stop ≠ [] := by
      rintro e
      rw [e] at hdrop
      cases hdrop
    simp [hx, hne]
  | none =>
    rw [getLast?_eq_none_iff] at hdrop
    cases hlast : new.getLast? with
    | some x =>
      have hmem := mem_of_getLast? hlast
      have hx : x ≠ '\r' := fun e => hnew (e ▸ hmem)
      simp [hx, ne_nil_of_mem hmem]
    | none =>
      rw [getLast?_eq_none_iff] at hlast
      simp [hlast, hdrop]

end LineParts

theorem exists_firstLine_returns (cs : List Char) :
    ∃ k, cs.takeWhile (· != '\n') = firstLine cs ++ replicate k '\r' := by
  let returns := (cs.takeWhile (· != '\n')).reverse.takeWhile (· == '\r')
  have hreturns : returns = replicate returns.length '\r' := by
    rw [eq_replicate_iff]
    exact ⟨rfl, fun c hc => by simpa using mem_takeWhile_imp hc⟩
  refine ⟨returns.length, ?_⟩
  rw [← reverse_replicate, ← hreturns, firstLine, ← reverse_append,
    takeWhile_append_dropWhile, reverse_reverse]

/-- A place that is found lies in a line, not behind the carriage returns at its end. -/
theorem exists_lineParts {text : List Char} {p : Position} {i : Nat}
    (h : p.index? text = some i) :
    ∃ parts : LineParts, text = parts.text parts.body ∧ parts.number = p.line ∧
      p.column ≤ parts.body.length := by
  rw [Position.index?] at h
  split at h
  · cases h
  next hzero =>
  split at h
  · cases h
  next rest hskip =>
  split at h
  · next hcolumn =>
    obtain ⟨front, rfl, hfront, hpos⟩ := skipLines_eq_some hskip
    obtain ⟨k, hreturns⟩ := exists_firstLine_returns rest
    have hnumber : 1 + (p.line - 1) = p.line :=
      Nat.add_sub_cancel' (Nat.pos_of_ne_zero (by simpa using hzero))
    have hback : rest.dropWhile (· != '\n') = [] ∨
        ∃ more, rest.dropWhile (· != '\n') = '\n' :: more := by
      cases hdrop : rest.dropWhile (· != '\n') with
      | nil => exact .inl rfl
      | cons c more =>
        have hc := head?_dropWhile_not (· != '\n') rest
        rw [hdrop] at hc
        exact .inr ⟨more, by simpa using hc⟩
    refine ⟨⟨p.line, front, firstLine rest, k, _, hnumber ▸ hpos 1, hfront,
      (exists_firstLine_append rest).1, getLast?_firstLine rest, hback⟩, ?_, rfl, hcolumn⟩
    rw [LineParts.text, ← append_assoc (firstLine rest), ← hreturns, takeWhile_append_dropWhile]
  · cases h

/-! ## The correction and its preview -/

/-- The columns that a correction of one line replaces. -/
def Correction.columns (c : Correction) : CharRange :=
  ⟨c.span.start.column, c.span.stop.column⟩

/-- Whether a correction takes out all that stands between a carriage return and a line feed. -/
def Correction.JoinsReturn (text : List Char) (c : Correction) : Prop :=
  c.replacement = "" ∧ ∃ i ∈ c.span.start.index? text, (text.take i).getLast? = some '\r' ∧
    ∃ j ∈ c.span.stop.index? text, (text.drop j).head? = some '\n'

instance (text : List Char) (c : Correction) : Decidable (c.JoinsReturn text) :=
  inferInstanceAs (Decidable (_ ∧ _))

/-- A line before and after a correction, each behind its number. -/
def Report.beforeAfter (n : Nat) (before after : List Char) : String :=
  let number := String.ofList (Text.alignRight 4 (Nat.toDigits 10 n))
  "  i fix:\n    " ++ number ++ " │ - " ++ String.ofList before ++ "\n    "
    ++ number ++ " │ + " ++ String.ofList after ++ "\n"

/-- Whether a correction stands in a line of a text. -/
structure Correction.StandsIn (source : String) (parts : LineParts) (c : Correction) : Prop where
  source_eq : source.toList = parts.text parts.body
  start_line : c.span.start.line = parts.number
  stop_line : c.span.stop.line = parts.number
  ordered : c.columns.start ≤ c.columns.stop
  inside : c.columns.stop ≤ parts.body.length

/-- A correction of one line that can be made stands in a line. -/
theorem Correction.exists_standsIn {source : String} {c : Correction} {done : Corrected}
    (hline : c.span.stop.line = c.span.start.line)
    (happly : Correction.applyAll source [c] = .ok done) :
    ∃ parts, c.StandsIn source parts := by
  have hfits : c.Fits source.toList := by
    rw [Correction.applyAll] at happly
    cases hes : [c].mapM (Edit.locate source.toList) with
    | error fault =>
      rw [hes] at happly
      cases happly
    | ok es => exact fits_of_mapM_locate hes c mem_cons_self
  obtain ⟨ordered, -, ⟨b, hb⟩⟩ := hfits
  obtain ⟨j, hj, -⟩ := Option.map_eq_some_iff.1 hb
  obtain ⟨parts, hsource, hnumber, hcolumn⟩ := exists_lineParts hj
  refine ⟨parts, hsource, (hnumber.trans hline).symm, hnumber.symm, ?_, hcolumn⟩
  rcases Position.le_iff.1 (isOrdered_iff.1 ordered) with hlt | ⟨-, hle⟩
  · exact absurd hline (Nat.ne_of_gt hlt)
  · exact hle

namespace Correction.StandsIn

variable {source : String} {parts : LineParts} {c : Correction} (h : c.StandsIn source parts)
include h

theorem start_inside : c.columns.start ≤ parts.body.length :=
  Nat.le_trans h.ordered h.inside

/-- What the correction makes of the text. -/
theorem applyAll_eq : Correction.applyAll source [c] = .ok ⟨String.ofList
    (parts.text (c.columns.replace c.replacement.toList parts.body)), 1, []⟩ := by
  refine applyAll_in_line h.source_eq parts.one_line parts.front_body_last h.ordered ?_
  rw [parts.after_take h.inside, parts.after_take h.start_inside]
  have hstart : c.span.start = ⟨parts.number, c.columns.start⟩ := by
    rw [← h.start_line]
    rfl
  have hstop : c.span.stop = ⟨parts.number, c.columns.stop⟩ := by
    rw [← h.stop_line]
    rfl
  rw [← hstart, ← hstop]

/-- What the preview makes of the line. -/
theorem corrected_eq : corrected (parts.body ++ parts.kept) c =
    c.columns.replace c.replacement.toList parts.body ++ parts.kept := by
  have hlength : c.columns.stop ≤ (parts.body ++ parts.kept).length := by
    rw [length_append]
    exact Nat.le_add_right_of_le h.inside
  have hstart : min c.span.start.column (parts.body ++ parts.kept).length = c.columns.start :=
    Nat.min_eq_left (Nat.le_trans h.ordered hlength)
  have hstop : min (max c.span.stop.column c.columns.start) (parts.body ++ parts.kept).length =
      c.columns.stop := by
    have hmax : max c.span.stop.column c.columns.start = c.columns.stop :=
      Nat.max_eq_left h.ordered
    rw [hmax, Nat.min_eq_left hlength]
  rw [← CharRange.replace_append h.ordered h.inside, CharRange.replace, ← append_assoc]
  simp only [corrected, hstart, hstop]

/-- A correction joins a carriage return to the line feed behind its line if the corrected line
ends in a carriage return and the line had none there. -/
theorem joinsReturn_iff (hplain : '\r' ∉ c.replacement.toList) : c.JoinsReturn source.toList ↔
    (c.columns.replace c.replacement.toList parts.body).getLast? = some '\r' ∧
      parts.returns = 0 ∧ parts.back ≠ [] := by
  have hbefore : (source.toList.take (parts.front.length + c.columns.start)).getLast? =
      some '\r' ↔ (parts.body.take c.columns.start).getLast? = some '\r' := by
    rw [h.source_eq, LineParts.text, take_length_add_append,
      take_append_of_le_length h.start_inside, getLast?_append]
    cases hbody : (parts.body.take c.columns.start).getLast? with
    | none => simpa using parts.front_last
    | some x => rfl
  have hbehind : (source.toList.drop (parts.front.length + c.columns.stop)).head? =
      some '\n' ↔ parts.body.drop c.columns.stop = [] ∧ parts.returns = 0 ∧
        parts.back ≠ [] := by
    rw [h.source_eq, LineParts.text, drop_length_add_append, drop_append_of_le_length h.inside]
    cases hbody : parts.body.drop c.columns.stop with
    | cons x rest =>
      have hx : x ∈ parts.body := mem_of_mem_drop (hbody ▸ mem_cons_self)
      simpa using fun e : x = '\n' => parts.one_line (e ▸ hx)
    | nil =>
      cases parts.returns with
      | succ k => simp [replicate_succ]
      | zero => rcases parts.back_head with hback | ⟨more, hback⟩ <;> simp [hback]
  rw [Correction.JoinsReturn, h.source_eq, parts.index?_text h.start_line h.start_inside,
    parts.index?_text h.stop_line h.inside, ← h.source_eq, parts.getLast?_replace hplain,
    String.toList_eq_nil_iff]
  simp only [Option.mem_some, exists_eq_left', and_assoc]
  exact and_congr_right fun _ => and_congr hbefore hbehind

theorem preview_eq (hshown : preview source c ≠ "") : preview source c =
    beforeAfter c.span.start.line (parts.body ++ parts.kept)
      (c.columns.replace c.replacement.toList parts.body ++ parts.kept) := by
  have hskip := parts.skipLines_text parts.body
  rw [← h.source_eq, ← h.start_line] at hskip
  have hfound := getElem?_lines hskip
  rw [parts.lineContent_eq parts.one_line fun _ _ => parts.body_last] at hfound
  rw [preview, hfound] at hshown ⊢
  split at hfound
  · next hnil => simp [hnil] at hshown
  · next hrest =>
    simp only [hrest, if_false, h.corrected_eq, h.start_line, h.stop_line, bne_self_eq_false]
    rfl

end Correction.StandsIn

/-- The preview of a correction of one line shows this line of the text, and it shows the same line
of the corrected text unless the correction joins a carriage return to the line feed behind it. The
corrected line is then without the carriage return that the preview shows at its end. -/
theorem preview_shows_line {source : String} {c : Correction} {done : Corrected}
    (hline : c.span.stop.line = c.span.start.line)
    (hplain : ∀ x ∈ c.replacement.toList, x ≠ '\n' ∧ x ≠ '\r')
    (happly : Correction.applyAll source [c] = .ok done) (hshown : preview source c ≠ "") :
    ∃ before after, preview source c = beforeAfter c.span.start.line before after ∧
      lineAt? c.span.start.line source.toList = some before ∧
      (¬ c.JoinsReturn source.toList →
        lineAt? c.span.start.line done.output.toList = some after) ∧
      (c.JoinsReturn source.toList → ∃ line, after = line ++ ['\r'] ∧
        lineAt? c.span.start.line done.output.toList = some line) := by
  obtain ⟨parts, h⟩ := Correction.exists_standsIn hline happly
  have hnewline : '\n' ∉ c.replacement.toList := fun hmem => (hplain _ hmem).1 rfl
  have hreturn : '\r' ∉ c.replacement.toList := fun hmem => (hplain _ hmem).2 rfl
  have hbefore : lineAt? c.span.start.line source.toList = some (parts.body ++ parts.kept) := by
    rw [h.source_eq, h.start_line, parts.lineAt?_text,
      parts.lineContent_eq parts.one_line fun _ _ => parts.body_last]
  have houtput : done.output.toList =
      parts.text (c.columns.replace c.replacement.toList parts.body) := by
    rw [h.applyAll_eq] at happly
    obtain rfl := Except.ok.inj happly
    exact String.toList_ofList
  have hjoins := h.joinsReturn_iff hreturn
  refine ⟨_, _, h.preview_eq hshown, hbefore, ?_, ?_⟩
  · intro hapart
    rw [houtput, h.start_line, parts.lineAt?_text,
      parts.lineContent_eq (parts.one_line_replace hnewline _)]
    intro hreturns hback hlast
    exact hapart (hjoins.2 ⟨hlast, hreturns, hback⟩)
  · intro hjoined
    obtain ⟨hlast, hreturns, hback⟩ := hjoins.1 hjoined
    obtain ⟨more, hmore⟩ := parts.back_head.resolve_left hback
    obtain ⟨line, hreplace⟩ := getLast?_eq_some_iff.1 hlast
    have hone : '\n' ∉ line := fun hmem =>
      parts.one_line_replace hnewline c.columns (hreplace ▸ mem_append_left _ hmem)
    refine ⟨line, ?_, ?_⟩
    · rw [hreplace, LineParts.kept, hmore, hreturns]
      simp
    · rw [houtput, h.start_line, parts.lineAt?_text, hreplace, hreturns, hmore, append_assoc]
      exact congrArg some (lineContent_return_newline hone more)

/-- A letter of two bytes is corrected on a line that ends with a carriage return of its own. -/
theorem preview_shows_line_behind_returns :
    let source := "[A]\r\nkéy=1\r\r\n"
    let c : Correction := ⟨"f", ⟨⟨2, 1⟩, ⟨2, 2⟩⟩, "e"⟩
    ¬ c.JoinsReturn source.toList ∧
      ∃ before after, preview source c = beforeAfter 2 before after ∧
        lineAt? 2 source.toList = some before ∧
        lineAt? 2 "[A]\r\nkey=1\r\r\n".toList = some after := by
  intro source c
  have hapart : ¬ c.JoinsReturn source.toList := by decide +kernel
  have happly : Correction.applyAll source [c] = .ok ⟨"[A]\r\nkey=1\r\r\n", 1, []⟩ := by
    decide +kernel
  obtain ⟨before, after, hpreview, hbefore, hafter, -⟩ :=
    preview_shows_line (c := c) rfl (by simp [c]) happly (by decide +kernel)
  exact ⟨hapart, before, after, hpreview, hbefore, hafter hapart⟩

/-- The line that is left when a carriage return becomes part of the ending is not the one shown. -/
theorem preview_shows_joined_return :
    let source := "ab\rX\n"
    let c : Correction := ⟨"f", ⟨⟨1, 3⟩, ⟨1, 4⟩⟩, ""⟩
    Correction.applyAll source [c] = .ok ⟨"ab\r\n", 1, []⟩ ∧
      preview source c = beforeAfter 1 "ab\rX".toList "ab\r".toList ∧
      lineAt? 1 "ab\r\n".toList = some "ab".toList := by
  decide +kernel

end ModCheck
