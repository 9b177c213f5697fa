import Mathlib.Data.List.Basic
import ModCheck.Proofs.Insertion
import ModCheck.Proofs.TokenMap

/-
  Reading tokens with the missing semicolons put in. A statement that lacks its semicolon gets one
  behind its last token, and all else is read as before: the readers look ahead at the first
  tokens of what follows, and these stay the same (`sections_closed`).
-/

namespace ModCheck

open List

variable {rest rest' ts : List Token}

/-! ## Statements without their semicolon -/

/-- Whether a statement lacks its semicolon. -/
def Statement.lacks : Statement → Bool
  | .assignment _ _ value ending due =>
    ending = .loose && due && joinTokens value != [] && !hasTag (joinTokens value)
  | _ => false

/-- The token behind which the semicolon is missing, if it is. -/
def Statement.due : Statement → List Token
  | .assignment key equals value ending due =>
    if (Statement.assignment key equals value ending due).lacks then value.getLast?.toList else []
  | _ => []

/-- The statement with its semicolon. -/
def Statement.closed : Statement → Statement
  | .assignment key equals value ending due =>
    if (Statement.assignment key equals value ending due).lacks then
      .assignment key equals value .semicolon due
    else .assignment key equals value ending due
  | st => st

def Block.due (b : Block) : List Token :=
  b.statements.flatMap Statement.due

def Block.closed (b : Block) : Block :=
  { b with statements := b.statements.map Statement.closed }

theorem Statement.due_of_not_lacks {st : Statement} (h : st.lacks = false) : st.due = [] := by
  cases st with
  | assignment => rw [Statement.due, h]; rfl
  | bareName => rfl
  | stray => rfl

theorem Statement.closed_of_not_lacks {st : Statement} (h : st.lacks = false) : st.closed = st := by
  cases st with
  | assignment => rw [Statement.closed, h]; rfl
  | bareName => rfl
  | stray => rfl

theorem assignment_messages (file : String) (key equals : Token) (value : List Token)
    (ending : ValueClose) (due : Bool) :
    (Statement.assignment key equals value ending due).messages file =
      if (Statement.assignment key equals value ending due).lacks then
        [{ Message.about .error .missingSemicolon
            ("Missing ';' after value of '" ++ key.text ++ "'") file (valueSpan equals value) with
            corrections := [.insert file (valueSpan equals value).stop ";"] }]
      else [] := rfl

/-- A statement that lacks its semicolon has a value, with a last token. -/
theorem exists_last_of_lacks {key equals : Token} {value : List Token} {ending : ValueClose}
    {due : Bool} (h : (Statement.assignment key equals value ending due).lacks = true) :
    ∃ last, value.getLast? = some last ∧ (valueSpan equals value).stop = last.stop := by
  cases value with
  | nil => simp [Statement.lacks, joinTokens] at h
  | cons first rest =>
    have e := getLast?_eq_some_getLast (cons_ne_nil first rest)
    exact ⟨_, e, by simp [valueSpan, e, Token.stop]⟩

/-! ## Looking ahead -/

theorem startsAssignment_congr (t : Token) {us : List Token} (h : us.head? = ts.head?) :
    startsAssignment (t :: us) = startsAssignment (t :: ts) := by
  cases ts with
  | nil =>
    cases us with
    | nil => rfl
    | cons => simp at h
  | cons u ts =>
    obtain ⟨us, rfl⟩ := head?_eq_some_iff.1 h
    rfl

theorem StopsHere.startsAssignment_eq_false (h : StopsHere ts) (t : Token) :
    startsAssignment (t :: ts) = false := by
  cases ts with
  | nil => rfl
  | cons u us =>
    have hu := h u rfl
    have he : u.kind ≠ .equals := by
      intro e
      simp [e, TokenKind.stops] at hu
    simp [startsAssignment, he]

variable {due used : List Token}

namespace Insertion

variable {ts' : List Token}

theorem startsAssignment_eq (h : Insertion due ts ts') :
    startsAssignment ts' = startsAssignment ts := by
  cases h with
  | nil => rfl
  | keep t rest => exact startsAssignment_congr t rest.head?_eq
  | @mark t due us us' solid stop rest =>
    rw [stop.startsAssignment_eq_false]
    simp [startsAssignment, Token.semicolon]

theorem endsValue_eq (h : Insertion due ts ts') :
    endsValue (skipNewlines ts') = endsValue (skipNewlines ts) := by
  induction h with
  | nil => rfl
  | @keep t due us us' rest ih =>
    rw [skipNewlines, skipNewlines]
    split
    · exact ih
    · rw [endsValue, endsValue, startsAssignment_congr t rest.head?_eq]
  | @mark t due us us' solid stop rest ih =>
    have hn : t.kind ≠ .newline := by
      intro e
      simp [e, TokenKind.isSolid] at solid
    have ha := (Insertion.mark solid stop rest).startsAssignment_eq
    rw [skipNewlines, if_neg hn, skipNewlines, if_neg hn, endsValue, endsValue, ha]

theorem stopsValue_eq (h : Insertion due ts ts') : stopsValue ts' = stopsValue ts := by
  cases h with
  | nil => rfl
  | keep t rest => rw [stopsValue, stopsValue, rest.endsValue_eq]
  | @mark t due us us' solid stop rest =>
    have hn : t.kind ≠ .newline := by
      intro e
      simp [e, TokenKind.isSolid] at solid
    simp [stopsValue, hn]

theorem semicolonDue_eq (h : Insertion due ts ts') : semicolonDue ts' = semicolonDue ts := by
  induction h with
  | nil => rfl
  | @keep t due us us' rest ih =>
    rw [semicolonDue, semicolonDue, ih, startsAssignment_congr t rest.head?_eq]
  | @mark t due us us' solid stop rest ih =>
    have hn : ¬ (decide (t.kind = .newline) || decide (t.kind = .comment)) = true := by
      intro e
      simp only [Bool.or_eq_true, decide_eq_true_eq] at e
      rcases e with e | e <;> simp [e, TokenKind.isSolid] at solid
    have ha := (Insertion.mark solid stop rest).startsAssignment_eq
    rw [semicolonDue, if_neg hn, semicolonDue, if_neg hn, ha]

theorem runs (h : Insertion due ts ts') (run : Runs used ts) : Runs used ts' := by
  induction used with
  | nil => exact runs_nil ts'
  | cons t us ih =>
    obtain ⟨hs, hc, ha, run⟩ := run
    exact ⟨hs, hc, (h.append_left (t :: us)).startsAssignment_eq.trans ha, ih run⟩

end Insertion

/-! ## Values -/

/-- A value ends as before when something changes behind it. -/
theorem ValueRead.insertion {vs : List Token} {r : List Token × ValueClose × List Token}
    (h : ValueRead vs r) (ins : Insertion due r.2.2 rest') :
    ∃ vs', Insertion due vs vs' ∧ ValueRead vs' (r.1, r.2.1, rest') := by
  cases h with
  | @semicolon used rest s run stop =>
    have ins' : Insertion due (s :: rest) (s :: rest') := .keep s ins
    exact ⟨used ++ s :: rest', ins'.append_left used, .semicolon (ins'.runs run) stop⟩
  | @nextProperty used rest run last stop =>
    exact ⟨used ++ rest', ins.append_left used,
      .nextProperty (ins.runs run) last (ins.startsAssignment_eq.trans stop)⟩
  | @loose used rest run last stop =>
    exact ⟨used ++ rest', ins.append_left used,
      .loose (ins.runs run) last (ins.stopsValue_eq.trans stop)⟩

theorem Runs.semicolon (run : Runs used rest) {s : Token}
    (hs : s.kind = .semicolon) (rest' : List Token) : Runs used (s :: rest') := by
  induction used with
  | nil => exact runs_nil _
  | cons t us ih =>
    obtain ⟨hsemi, hc, ha, run⟩ := run
    refine ⟨hsemi, hc, ?_, ih run⟩
    cases us with
    | nil => simp [startsAssignment, hs]
    | cons u us => exact ha

theorem stopsHere_of_stopsValue (h : stopsValue ts = true) : StopsHere ts := by
  intro t ht
  obtain ⟨us, rfl⟩ := head?_eq_some_iff.1 ht
  simp only [stopsValue, Bool.or_eq_true, Bool.and_eq_true, decide_eq_true_eq] at h
  rcases h with h | h
  · rw [h]
    rfl
  · rw [h.1]
    rfl

theorem getLast?_valueTokens (last : EndsSolid used) :
    (valueTokens used).getLast? = used.getLast? := by
  rcases eq_nil_or_concat' used with rfl | ⟨front, t, rfl⟩
  · rfl
  · have ht : t.kind ≠ .newline := last t (by simp)
    rw [valueTokens]
    simp [ht]

/-- A semicolon behind the last token of a value ends it. -/
theorem ValueRead.close {vs value : List Token} (h : ValueRead vs (value, .loose, rest))
    (inner : Inner vs) (hv : value ≠ []) (ins : Insertion due rest rest') :
    ∃ vs', Insertion (value.getLast?.toList ++ due) vs vs' ∧
      ValueRead vs' (value, .semicolon, rest') := by
  cases h with
  | @loose used rest run last stop =>
    rcases eq_nil_or_concat' used with rfl | ⟨front, t, rfl⟩
    · exact absurd rfl hv
    have hlast : (valueTokens (front ++ [t])).getLast? = some t := by
      rw [getLast?_valueTokens last]
      simp
    have solid : t.kind.isSolid = true := by
      have hn : t.kind ≠ .newline := last t (by simp)
      have hc := (run.kind_ne (mem_append_right front mem_cons_self)).1
      have he := (inner t (by simp)).2
      exact TokenKind.isSolid_iff.2 ⟨hn, hc, he⟩
    refine ⟨front ++ t :: t.semicolon :: rest', ?_, ?_⟩
    · rw [hlast, append_assoc]
      exact (Insertion.mark solid (stopsHere_of_stopsValue stop) ins).append_left front
    · rw [append_cons]
      exact .semicolon (run.semicolon rfl rest') rfl

/-! ## Statements and headings -/

/-- A damaged property is skipped as before when something changes behind it. -/
theorem skipProperty_insertion (ins : Insertion due (skipProperty ts) rest') :
    ∃ ts', Insertion due ts ts' ∧ skipProperty ts' = rest' := by
  induction ts with
  | nil =>
    cases ins
    exact ⟨[], .nil, rfl⟩
  | cons t ts ih =>
    rw [skipProperty] at ins
    split at ins
    · next hn =>
      obtain ⟨us, rfl⟩ := head?_eq_some_iff.1 ins.head?_eq
      exact ⟨t :: us, ins, by rw [skipProperty, if_pos hn]⟩
    · next hn =>
      split at ins
      · next hs => exact ⟨t :: rest', .keep t ins, by rw [skipProperty, if_neg hn, if_pos hs]⟩
      · next hs =>
        obtain ⟨ts', ins', e⟩ := ih ins
        exact ⟨t :: ts', .keep t ins', by rw [skipProperty, if_neg hn, if_neg hs, e]⟩

theorem Inner.of_suffix {us : List Token} (h : Inner ts) (hs : us <:+ ts) : Inner us :=
  fun t ht => h t (hs.subset ht)

/-- With semicolons where they lack, statements are read as before but closed. -/
theorem statements_closed (inner : Inner ts) :
    ∃ ts', Insertion ((readStatements ts).flatMap Statement.due) ts ts' ∧
      readStatements ts' = (readStatements ts).map Statement.closed := by
  induction ts using readStatements_induction with
  | nil => exact ⟨[], by simpa [readStatements] using Insertion.nil, by simp [readStatements]⟩
  | separator t ts ht ih =>
    obtain ⟨ts', ins, e⟩ := ih (inner.of_suffix (suffix_cons t ts))
    rw [readStatements_separator ht]
    exact ⟨t :: ts', .keep t ins, by rw [readStatements_separator ht, e]⟩
  | assignment key equals vs hk he ih =>
    have inner' : Inner vs :=
      inner.of_suffix ((suffix_cons equals vs).trans (suffix_cons key _))
    obtain ⟨rest', ins, e⟩ := ih (inner'.of_suffix (readValue_suffix vs))
    have read := valueRead_readValue vs
    rw [readStatements_assignment hk he, map_cons]
    generalize readValue vs = r at read ins e ⊢
    obtain ⟨value, ending, rest⟩ := r
    -- whether the value gets a semicolon, and how it ends then
    obtain ⟨vs', ending', ins', read', closed⟩ : ∃ vs' ending',
        Insertion ((Statement.assignment key equals value ending (semicolonDue rest)).due ++
          (readStatements rest).flatMap Statement.due) vs vs' ∧
        ValueRead vs' (value, ending', rest') ∧
        (Statement.assignment key equals value ending (semicolonDue rest)).closed =
          .assignment key equals value ending' (semicolonDue rest) := by
      cases hl : (Statement.assignment key equals value ending (semicolonDue rest)).lacks with
      | false =>
        obtain ⟨vs', ins', read'⟩ := read.insertion ins
        rw [Statement.due_of_not_lacks hl, Statement.closed_of_not_lacks hl]
        exact ⟨vs', ending, ins', read', rfl⟩
      | true =>
        have hl' := hl
        simp only [Statement.lacks, Bool.and_eq_true, decide_eq_true_eq, bne_iff_ne] at hl'
        obtain ⟨⟨⟨rfl, -⟩, hv⟩, -⟩ := hl'
        obtain ⟨vs', ins', read'⟩ := read.close inner' (fun h => hv (by rw [h]; rfl)) ins
        rw [Statement.due, if_pos hl, Statement.closed, if_pos hl]
        exact ⟨vs', .semicolon, ins', read', rfl⟩
    refine ⟨key :: equals :: vs', .keep key (.keep equals ins'), ?_⟩
    rw [readStatements_assignment hk he, readValue_of_valueRead read', closed]
    rw [ins.semicolonDue_eq, e]
  | bareName key ts hk ha ih =>
    obtain ⟨rest', ins, e⟩ := ih (inner.of_suffix
      ((skipProperty_suffix ts).trans (suffix_cons key ts)))
    obtain ⟨ts', ins', e'⟩ := skipProperty_insertion ins
    have ha' := (Insertion.keep key ins').startsAssignment_eq.trans ha
    rw [readStatements_bareName hk ha]
    exact ⟨key :: ts', .keep key ins', by rw [readStatements_bareName hk ha', e', e]; rfl⟩
  | stray t ts ht hk ih =>
    obtain ⟨rest', ins, e⟩ := ih (inner.of_suffix
      ((skipProperty_suffix ts).trans (suffix_cons t ts)))
    obtain ⟨ts', ins', e'⟩ := skipProperty_insertion ins
    rw [readStatements_stray ht hk]
    exact ⟨t :: ts', .keep t ins', by rw [readStatements_stray ht hk, e', e]; rfl⟩

theorem afterBracket?_insertion (h : afterBracket? ts = some rest)
    (ins : Insertion due rest rest') :
    ∃ ts', Insertion due ts ts' ∧ afterBracket? ts' = some rest' := by
  induction ts with
  | nil => simp [afterBracket?] at h
  | cons t ts ih =>
    rw [afterBracket?] at h
    split at h
    · next hb =>
      obtain rfl := Option.some.inj h
      exact ⟨t :: rest', .keep t ins, by rw [afterBracket?, if_pos hb]⟩
    · next hb =>
      split at h
      · simp at h
      · next hn =>
        obtain ⟨ts', ins', e⟩ := ih h
        exact ⟨t :: ts', .keep t ins', by rw [afterBracket?, if_neg hb, if_neg hn, e]⟩

theorem Insertion.afterBracket?_eq_none {due ts' : List Token} (h : Insertion due ts ts')
    (hb : afterBracket? ts = none) : afterBracket? ts' = none := by
  induction h with
  | nil => rfl
  | keep t rest ih =>
    rw [afterBracket?] at hb ⊢
    split at hb
    · simp at hb
    · next h =>
      rw [if_neg h]
      split at hb
      · next hn => rw [if_pos hn]
      · next hn => rw [if_neg hn, ih hb]
  | @mark t due us us' solid stop rest ih =>
    have hn : t.kind ≠ .newline := by
      intro e
      simp [e, TokenKind.isSolid] at solid
    rw [afterBracket?] at hb
    split at hb
    · simp at hb
    · next h =>
      rw [afterBracket?, if_neg h, if_neg hn, afterBracket?, if_neg (by simp [Token.semicolon]),
        if_neg (by simp [Token.semicolon]), ih hb]

theorem skipHeading_insertion (ins : Insertion due (skipHeading ts) rest') :
    ∃ ts', Insertion due ts ts' ∧ skipHeading ts' = rest' := by
  unfold skipHeading at ins ⊢
  cases h : afterBracket? ts with
  | none =>
    rw [h] at ins
    exact ⟨rest', ins, by rw [ins.afterBracket?_eq_none h]; rfl⟩
  | some rest =>
    rw [h] at ins
    obtain ⟨ts', ins', e⟩ := afterBracket?_insertion h ins
    exact ⟨ts', ins', by rw [e]; rfl⟩

/-- A heading is read as before when something changes behind it. -/
theorem readHeading_insertion {due body' : List Token}
    (ins : Insertion due (readHeading ts).2 body') :
    ∃ ts', Insertion due ts ts' ∧ readHeading ts' = ((readHeading ts).1, body') := by
  fun_cases readHeading ts with
  | case1 =>
    cases ins
    exact ⟨[], .nil, rfl⟩
  | case2 t hk =>
    rw [readHeading.eq_2, if_pos hk] at ins
    cases ins
    exact ⟨[t], .keep t .nil, by simp [readHeading, hk]⟩
  | case3 t hk close rest hc =>
    rw [readHeading, if_pos hk, if_pos hc] at ins
    exact ⟨t :: close :: body', .keep t (.keep close ins), by simp [readHeading, hk, hc]⟩
  | case4 t hk close rest hc =>
    rw [readHeading, if_pos hk, if_neg hc] at ins
    obtain ⟨ts', ins', e⟩ := skipHeading_insertion ins
    obtain ⟨us, rfl⟩ := head?_eq_some_iff.1 ins'.head?_eq
    exact ⟨t :: close :: us, .keep t ins', by simp [readHeading, hk, hc, e]⟩
  | case5 t ts hk =>
    have e (us : List Token) : readHeading (t :: us) = (.unnamed, skipHeading (t :: us)) := by
      cases us <;> simp [readHeading, hk]
    rw [e] at ins
    obtain ⟨ts', ins', e'⟩ := skipHeading_insertion ins
    obtain ⟨us, rfl⟩ := head?_eq_some_iff.1 ins'.head?_eq
    exact ⟨t :: us, ins', by rw [e, e']⟩

/-! ## Files -/

theorem section_closed (opening : Token) (inner : Inner ts) :
    ∃ ts', Insertion (Section.mk opening ts).toBlock.due ts ts' ∧
      (Section.mk opening ts').toBlock = (Section.mk opening ts).toBlock.closed := by
  obtain ⟨body', ins, e⟩ := statements_closed (inner.of_suffix (readHeading_suffix ts))
  obtain ⟨ts', ins', e'⟩ := readHeading_insertion ins
  refine ⟨ts', ins', ?_⟩
  rw [Section.toBlock, e']
  rw [e]
  rfl

/-- What follows the tokens before the first bracket ends a line or a section. -/
theorem stopsHere_of_splitSections (h : StopsHere (splitSections ts).1) : StopsHere ts := by
  intro t ht
  obtain ⟨us, rfl⟩ := head?_eq_some_iff.1 ht
  rw [splitSections] at h
  split at h
  · next he => simp [he, TokenKind.stops]
  · dsimp only at h
    split at h
    · next hb => simp [hb, TokenKind.stops]
    · exact h t rfl

/-- With semicolons where they lack, a file is read as before but with its statements closed. -/
theorem sections_closed {due stray' : List Token}
    (ins : Insertion due (splitSections ts).1 stray') :
    ∃ ts', Insertion (due ++ (blocksOf ts).flatMap Block.due) ts ts' ∧
      (splitSections ts').1 = stray' ∧ blocksOf ts' = (blocksOf ts).map Block.closed := by
  unfold blocksOf
  induction ts generalizing due stray' with
  | nil =>
    cases ins
    exact ⟨[], .nil, rfl, rfl⟩
  | cons t ts ih =>
    by_cases he : t.kind = .endOfFile
    · have e : splitSections (t :: ts) = ([], []) := by rw [splitSections, if_pos he]
      rw [e] at ins ⊢
      cases ins
      exact ⟨t :: ts, Insertion.refl _, by rw [e], by rw [e]; rfl⟩
    by_cases hb : t.kind = .leftBracket
    · have e (us : List Token) : splitSections (t :: us) =
          ([], ⟨t, (splitSections us).1⟩ :: (splitSections us).2) := by
        rw [splitSections, if_neg he, if_pos hb]
      rw [e] at ins ⊢
      cases ins
      obtain ⟨body', ins', eb⟩ := section_closed t (inner_splitSections ts).1
      obtain ⟨ts', ins'', es, ebs⟩ := ih ins'
      refine ⟨t :: ts', .keep t ins'', by rw [e], ?_⟩
      rw [e, map_cons, map_cons, map_cons, es, eb, ebs]
    · have e {u : Token} (hu : u.kind ≠ .endOfFile) (hu' : u.kind ≠ .leftBracket)
          (us : List Token) : splitSections (u :: us) =
          (u :: (splitSections us).1, (splitSections us).2) := by
        rw [splitSections, if_neg hu, if_neg hu']
      rw [e he hb] at ins ⊢
      cases ins with
      | keep t rest =>
        obtain ⟨ts', ins', es, ebs⟩ := ih rest
        exact ⟨t :: ts', .keep t ins', by rw [e he hb, es], by rw [e he hb, ebs]⟩
      | mark solid stop rest =>
        obtain ⟨ts', ins', es, ebs⟩ := ih rest
        have hs : t.semicolon.kind = .semicolon := rfl
        refine ⟨t :: t.semicolon :: ts',
          .mark solid (stopsHere_of_splitSections stop) ins', ?_, ?_⟩
        · rw [e he hb, e (by simp [hs]) (by simp [hs]), es]
        · rw [e he hb, e (by simp [hs]) (by simp [hs]), ebs]

end ModCheck
