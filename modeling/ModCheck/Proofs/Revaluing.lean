import ModCheck.Proofs.NameRepair
import ModCheck.Proofs.SemicolonRepair
import ModCheck.Proofs.WholeValues

/-
  A file that says the same but for one value. `Revalued` compares what is read of two texts: type
  names, keys and values, in order. It holds if one token of that value has another text that is
  scanned as one token again (`revalued_reworded`), and then the new value, like every value, holds
  no property (`Revalued.whole`).
-/

namespace ModCheck

open List

variable {ending : ValueClose} {equals key t : Token} {source : String}

/-- Reading `output` gives what reading `source` gives, but for the value of one property. -/
def Revalued (source output file : String) (p : Property) (value : String) : Prop :=
  (Document.parse output file).objects.map (Object.view (·.value)) =
    (Document.parse source file).objects.map (Object.view fun q =>
      if q = p then value else q.value)

/-- A text that is read as a value holds no property. -/
theorem Revalued.whole {output file : String} {o : Object} {k : String} {p : Property}
    {value : String} (h : Revalued source output file p value)
    (ho : o ∈ (Document.parse source file).objects) (hp : (k, p) ∈ o.properties) :
    holdsProperty value.toList = false := by
  have hview : o.view (fun q => if q = p then value else q.value) ∈
      (Document.parse output file).objects.map (Object.view (·.value)) := by
    rw [h]
    exact mem_map_of_mem ho
  obtain ⟨o', ho', e⟩ := mem_map.1 hview
  have hpair : (k, value) ∈ (o'.view (·.value)).2 := by
    rw [e]
    exact mem_map.2 ⟨(k, p), hp, by simp⟩
  obtain ⟨⟨k', p'⟩, hp', e⟩ := mem_map.1 hpair
  obtain ⟨-, rfl⟩ := Prod.mk.inj e
  exact holdsProperty_value ho' hp'

/-! ## Another text for one token of a value -/

/-- Every token stands in one statement. -/
theorem statement_eq {st st' : Statement} (h : st ∈ statementsOf (Token.scan source))
    (h' : st' ∈ statementsOf (Token.scan source)) (ht : t ∈ st.tokens) (ht' : t ∈ st'.tokens) :
    st = st' :=
  eq_of_nodup_flatMap ((kept_nodup source).sublist (statements_sublist _)) h h' ht ht'

/-- Another text for one token of a value is read in the place of its text. -/
theorem joinTokens_reworded {front rest : List Token} (hfront : t ∉ front) (hrest : t ∉ rest)
    (text : String) :
    joinTokens ((front ++ t :: rest).map (t.rewording text)) =
      joinTokens (front ++ { t with text } :: rest) := by
  have stays : t.push text.toList { t with text } = { t with text } := if_neg (Nat.lt_irrefl _)
  rw [← joinTokens_map (n := 0) (Token.push_line t text) (Token.push_lead t text)
    (Token.push_text t text) (front ++ { t with text } :: rest)]
  simp only [map_append, map_cons, Token.map_rewording hfront, Token.map_rewording hrest,
    Token.rewording_self, stays]

section

variable {output : String} {front rest : List Token} {due : Bool} {b : Block}
  (hb : b ∈ blocksOf (Token.scan source))
  (hst : .assignment key equals (front ++ t :: rest) ending due ∈ b.statements)
include hb hst

/-- A token of a value is no name. -/
theorem text_of_name (text : String) {b' : Block} (hb' : b' ∈ blocksOf (Token.scan source))
    {name : Token} (hn : name ∈ b'.names) : (t.rewording text name).text = name.text := by
  rw [Token.rewording_text, if_neg]
  rintro rfl
  exact not_mem_value_of_mem_names hb (mem_flatMap_of_mem hb' hn) hst (by simp)

/-- The other properties keep their values. -/
theorem property_reworded_value (text : String) {b' : Block}
    (hb' : b' ∈ blocksOf (Token.scan source)) {name : Token} {closed : Bool}
    (hn : b'.heading = .named name closed) {st : Statement} (h : st ∈ b'.statements) :
    (st.map (t.rewording text)).property?.map (fun q => (q.1, q.2.value)) =
      st.property?.map fun q => (q.1, if q.2 = ⟨String.ofList (joinTokens (front ++ t :: rest)),
        key.lineSpan, valueSpan equals (front ++ t :: rest), ending = .semicolon⟩ then
          String.ofList (joinTokens (front ++ { t with text } :: rest)) else q.2.value) := by
  cases st with
  | bareName => rfl
  | stray => rfl
  | assignment key' equals' value' ending' due' =>
    have h' := mem_flatMap_of_mem hb' h
    have hst' := mem_flatMap_of_mem hb hst
    have one (u : Token) (hu : u ∈ (Statement.assignment key' equals' value' ending' due').tokens)
        (hu' : u ∈ (Statement.assignment key equals (front ++ t :: rest) ending due).tokens) :=
      Statement.assignment.inj (statement_eq h' hst' hu hu')
    simp only [Statement.map, Statement.property?, Option.map_some,
      text_of_name hb hst text hb' (mem_names_key hn h)]
    by_cases ht : t ∈ value'
    · obtain ⟨rfl, rfl, rfl, rfl, rfl⟩ :=
        one t (by simp [Statement.tokens, ht]) (by simp [Statement.tokens])
      have distinct := (pairwise_flatMap.1
        ((kept_nodup source).sublist (statements_sublist _))).1 _ hst'
      simp only [Statement.tokens, pairwise_cons, pairwise_append] at distinct
      obtain ⟨-, -, -, ⟨hrest, -⟩, hfront⟩ := distinct
      rw [if_pos rfl, joinTokens_reworded (fun hmem => hfront t hmem t mem_cons_self rfl)
        fun hmem => hrest t hmem rfl]
    · rw [if_neg, joinTokens_rewording ht]
      -- a property with its name in the same place is the same one
      intro e
      have hstart : key'.start = key.start :=
        congrArg (fun q : Property => (LineSpan.toSpan q.nameSpan).start) e
      obtain rfl := kept_eq_of_start_eq (mem_kept source hst' mem_cons_self)
        (mem_kept source h' mem_cons_self) hstart
      obtain ⟨-, -, rfl, -⟩ := one key' mem_cons_self mem_cons_self
      exact ht (by simp)

/-- Another text for one token of a value, if it is scanned as one token again, is read as another
value. -/
theorem revalued_reworded {text : String}
    (hscan : Token.scan output = (Token.scan source).map (t.rewording text)) (file : String) :
    Revalued source output file ⟨String.ofList (joinTokens (front ++ t :: rest)), key.lineSpan,
      valueSpan equals (front ++ t :: rest), ending = .semicolon⟩
      (String.ofList (joinTokens (front ++ { t with text } :: rest))) := by
  rw [Revalued, parse_view, parse_view, blocksOf_reworded hscan, filterMap_map]
  refine filterMap_congr fun b' hb' => ?_
  have names : ∀ name closed, b'.heading = .named name closed →
      (t.rewording text name).text = name.text := fun name closed hn =>
    text_of_name hb hst text hb' (mem_names_heading hn)
  have statements (name : Token) (closed : Bool) (hn : b'.heading = .named name closed) :=
    filterMap_congr fun st h => property_reworded_value hb hst text hb' hn h
  obtain ⟨opening, heading, sts⟩ := b'
  cases heading with
  | unnamed => rfl
  | named name closed =>
    have statements := statements name closed rfl
    rw [← map_filterMap, ← map_filterMap] at statements
    simp only [Function.comp_apply, Block.map, Heading.map, Block.view?, names name closed rfl,
      filterMap_map]
    exact congrArg (fun ps => some (name.text, (storedKeys [] (ps.map (·.1))).zip
      (ps.map (·.2)))) statements

end

end ModCheck
