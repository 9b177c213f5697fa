import ModCheck.Proofs.QuotedText

/-
  Where the issues of a value are found. An issue stands on characters of the value
  (`issue_places_in_value`), and a text that is not a formula is at fault at one of its characters,
  or at its end (`parse_fault_le`).
-/

namespace ModCheck

namespace Formula

variable {fault : Fault} {ts : List Token}

theorem Fault.At.le {stop : Nat} (h : fault.At stop ts) (spaced : Spaced 0 ts stop) :
    fault.offset ≤ stop := by
  rcases h with h | ⟨t, ht, h⟩
  · rw [h]
  · obtain ⟨before, behind, rfl⟩ := List.append_of_mem ht
    obtain ⟨m, -, h₁, h₂, rest⟩ := spaced_append.1 spaced
    have := rest.le
    omega

/-- A text that is not a formula is at fault at one of its characters or at its end. -/
theorem parse_fault_le {text : String} (h : parse text = .error fault) :
    fault.offset ≤ text.length := by
  unfold parse at h
  split at h
  · next fault' scanned =>
    obtain rfl := Except.error.inj h
    obtain ⟨before, c, rest, -, e, rfl, -⟩ := tokensFrom_error scanned
    have len := congrArg List.length e
    rw [String.length_toList, List.length_append] at len
    simp only [Fault.offset]
    omega
  · next ts scanned =>
    rcases (ofTokens_outcome _ ts).2 fault h with rfl | raised
    · exact Nat.zero_le _
    · exact raised.place.le (spaced_scan scanned)

end Formula

/-- Every issue of a value is found in the value, and a text that is not a formula is at fault
somewhere in it or at its end. -/
theorem issue_places_in_value (schema : Schema) (options : Options) (key value : String)
    (field : Field) (text : String) :
    (∀ issue ∈ valueIssues schema options key value field,
      issue.range.start ≤ issue.range.stop ∧ issue.range.stop ≤ value.length) ∧
    ∀ fault, Formula.parse text = .error fault → fault.offset ≤ text.length := by
  refine ⟨fun issue hissue => ?_, fun fault h => Formula.parse_fault_le h⟩
  obtain ⟨quoted, here, -⟩ := aims_valueIssues schema options key value field issue hissue
  rw [← String.length_toList]
  exact ⟨here.liesIn.ordered, here.liesIn.upper⟩

/-- The second of two numbers, and the end of a text that breaks off. -/
theorem issue_places_in_pair :
    (∃ issue ∈ valueIssues .empty {} "k" " 1, a" ⟨"k", .vector2, false, none, false⟩,
      issue.range = ⟨4, 5⟩ ∧ issue.range.start ≤ issue.range.stop ∧
        issue.range.stop ≤ " 1, a".length) ∧
      ∃ fault, Formula.parse "1 +" = .error fault ∧ fault.offset ≤ 3 := by
  have ranges : (valueIssues .empty {} "k" " 1, a" ⟨"k", .vector2, false, none, false⟩).map
      (·.range) = [⟨4, 5⟩] := by
    decide +kernel
  have parsed : Formula.parse "1 +" = .error (.unexpectedEnd 3) := by
    decide +kernel
  obtain ⟨places, faults⟩ := issue_places_in_value .empty {} "k" " 1, a"
    ⟨"k", .vector2, false, none, false⟩ "1 +"
  obtain ⟨issue, hissue, range⟩ := List.mem_map.1 (ranges ▸ List.mem_singleton_self _)
  exact ⟨⟨issue, hissue, range, places issue hissue⟩, _, parsed, faults _ parsed⟩

end ModCheck
