import Mathlib.Data.List.DropRight
import ModCheck.Proofs.TypeExpansion

/-
  Types as they are displayed. Without aliases every declared text has a type, since each list that
  is opened leaves a shorter text (`opens_shorter`). What is displayed of a type is one of the texts
  that declare it (`Resolves.display`): a list is displayed around its elements, a known type by a
  name of its own, and any other name as it stands between its blanks.
-/

namespace ModCheck

open List
open Relation (TransGen)
open Text (isBlank)

/-! ## Blanks around a text -/

theorem trim_of_solid {c d : Char} {cs : List Char} (hc : isBlank c = false)
    (hd : isBlank d = false) : Text.trim (c :: (cs ++ [d])) = c :: (cs ++ [d]) := by
  rw [Text.trim, Text.trimStart, dropWhile_cons_of_neg (by simp [hc]), ← cons_append]
  exact rdropWhile_concat_neg isBlank _ d (by simp [hd])

theorem trim_trim (cs : List Char) : Text.trim (Text.trim cs) = Text.trim cs := by
  have hstart : (Text.trim cs).dropWhile isBlank = Text.trim cs := by
    rw [dropWhile_eq_self_iff]
    intro hl
    obtain ⟨rest, hrest⟩ : Text.trim cs <+: cs.dropWhile isBlank := rdropWhile_prefix _ _
    have first := head?_dropWhile_not isBlank cs
    rw [← hrest, head?_append, head?_eq_getElem?, getElem?_eq_getElem hl] at first
    simpa using first
  rw [Text.trim, Text.trimStart, hstart]
  exact rdropWhile_idempotent isBlank _

namespace FieldType

variable {enums : List (String × List String)} {declared name : String} {type : FieldType}

/-! ## Names without aliases -/

theorem nameOf_eq : (Scope.mk [] enums).nameOf declared =
    String.ofList (Text.trim declared.toList) := rfl

theorem nameOf_nameOf : (Scope.mk [] enums).nameOf ((Scope.mk [] enums).nameOf declared) =
    (Scope.mk [] enums).nameOf declared := by
  rw [nameOf_eq, nameOf_eq, String.toList_ofList, trim_trim]

theorem opens_shorter {inner : String} (h : Opens ⟨[], enums⟩ declared inner) :
    inner.length < declared.length := by
  obtain ⟨cs, cut, rfl⟩ := Option.map_eq_some_iff.1 h
  rw [nameOf_eq, String.toList_ofList] at cut
  have shorter := length_of_listElement? cut
  have trimmed := length_trim_le declared.toList
  rw [String.length_toList] at trimmed
  rw [String.length_ofList]
  omega

theorem not_circular : ¬ Circular ⟨[], enums⟩ declared := by
  rintro ⟨again, -, circle⟩
  have shorter {a b : String} (path : TransGen (Opens ⟨[], enums⟩) a b) : b.length < a.length := by
    induction path with
    | single opens => exact opens_shorter opens
    | tail _ opens ih => exact (opens_shorter opens).trans ih
  exact Nat.lt_irrefl _ (shorter circle)

/-! ## Displayed types -/

/-- The types that have names of their own. -/
def known : List FieldType :=
  [.boolean, .integer, .float, .byte, .vector2, .tileCoord, .vector3, .rectangle, .string,
    .formula, .richText]

theorem ofName_cases (enums : List (String × List String)) (name : String) :
    ofName enums name ∈ known ∨ (ofName enums name).display = name := by
  unfold ofName
  split
  case h_15 => split <;> exact .inr rfl
  all_goals exact .inl (by decide)

/-- A known type goes before an enumeration of the same name. -/
theorem ofName_of_known (h : ofName [] name ∈ known) : ofName enums name = ofName [] name := by
  unfold ofName at h ⊢
  split
  case h_15 =>
    simp [known] at h
  all_goals rfl

theorem resolves_known (h : type ∈ known) : Resolves ⟨[], enums⟩ type.display type := by
  have named : ∀ type ∈ known, listElement? (Text.trim type.display.toList) = none ∧
      ofName [] (String.ofList (Text.trim type.display.toList)) = type := by decide +kernel
  obtain ⟨plain, same⟩ := named type h
  have found : Resolves ⟨[], enums⟩ type.display
      (ofName enums (String.ofList (Text.trim type.display.toList))) := by
    refine .name ?_
    rw [Scope.element?, nameOf_eq, String.toList_ofList, plain]
    rfl
  rwa [ofName_of_known (by rwa [same]), same] at found

theorem opens_display (type : FieldType) :
    Opens ⟨[], enums⟩ (FieldType.list type).display type.display := by
  have whole : (FieldType.list type).display.toList =
      'L' :: (['i', 's', 't', '<'] ++ type.display.toList ++ ['>']) := by
    simp [display]
  have cut : listElement? (FieldType.list type).display.toList = some type.display.toList := by
    rw [whole]
    simp [listElement?]
  rw [Opens, Scope.element?, nameOf_eq, String.toList_ofList, whole,
    trim_of_solid (by decide) (by decide), ← whole, cut, Option.map_some, String.ofList_toList]

/-- A displayed type is a declared text of the type. -/
theorem Resolves.display (h : Resolves ⟨[], enums⟩ declared type) :
    Resolves ⟨[], enums⟩ type.display type := by
  induction h with
  | list _ _ ih => exact .list (opens_display _) ih
  | @name declared plain =>
    rcases ofName_cases enums ((Scope.mk [] enums).nameOf declared) with hknown | same
    · exact resolves_known hknown
    · rw [same]
      have found : Resolves ⟨[], enums⟩ ((Scope.mk [] enums).nameOf declared) _ := .name ?_
      · rwa [nameOf_nameOf] at found
      · rwa [Scope.element?, nameOf_nameOf]

/-- Without aliases every declared text has a type, and the type as it is displayed is again a text
of that type. -/
theorem displayed_type_read_back (enums : List (String × List String)) (declared : String) :
    ∃ type, resolve? ⟨[], enums⟩ declared = some type ∧
      resolve? ⟨[], enums⟩ type.display = some type := by
  have ends : ¬ Circular ⟨[], enums⟩ declared := not_circular
  obtain ⟨type, h⟩ := resolve?_ends_iff.2 ends
  exact ⟨type, h, resolve?_eq_some_iff.2 (resolve?_eq_some_iff.1 h).display⟩

/-- A list of lists of an enumeration, declared with blanks and displayed without them. -/
theorem displayed_type_read_back_nested :
    let scope : Scope := ⟨[], [("Colour", ["red", "green"])]⟩
    let type := FieldType.list (.list (.enumeration "Colour"))
    resolve? scope " List< List<Colour > >" = some type ∧
      type.display = "List<List<Colour>>" ∧
      resolve? scope "List<List<Colour>>" = some type := by
  intro scope type
  have read : resolve? scope " List< List<Colour > >" = some type := by decide +kernel
  have shown : type.display = "List<List<Colour>>" := by decide +kernel
  obtain ⟨type', found, again⟩ :=
    displayed_type_read_back scope.enums " List< List<Colour > >"
  obtain rfl : type = type' := Option.some.inj (read.symm.trans found)
  rw [shown] at again
  exact ⟨read, shown, again⟩

end FieldType

end ModCheck
