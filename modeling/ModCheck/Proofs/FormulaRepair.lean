import ModCheck.Proofs.FormulaRewriting
import ModCheck.Proofs.NameOwners
import ModCheck.Proofs.QuotedText

/-
  What a formula is once a replacement is made. An issue that offers a replacement comes from one
  call: its name is not known, a sign between its arguments is not allowed, or its first argument
  names no sub-operator; the call may be one that a chain holds inside it (`Offered`). What is asked
  of an argument depends on the words before it and on how many follow, so the argument that is
  written anew is asked the same question again, and the name that is offered answers it
  (`Offered.answered`). The rest of the formula stays what it was (`replacement_repairs`).
-/

namespace ModCheck

open List

namespace Formula

variable {call : Call} {hasBody : Bool} {j : Issue} {label : String} {n : Nat} {op : Operator}
  {range : CharRange} {x : Argument} {xs : List Argument}

/-! ## Where offers come from -/

/-- An issue of a call that offers a replacement: about the call's name, about a delimiter, about
the sub-operator that is asked for, or about the call that a chain without a body holds inside
it. -/
inductive Offered (s : Checker) : Call → Bool → Issue → Prop
  | name {call : Call} {hasBody : Bool} {i : Issue} (unknown : s.operators.find? call.name = none)
      (code : i.code = .unknownOperator) (range : i.range = call.nameSpan)
      (offer : ∀ r, i.replacement = some r → r ∈ s.operators.names) : Offered s call hasBody i
  | delimiter {call : Call} {hasBody : Bool} {i : Issue} {x : Argument} (hx : x ∈ call.arguments)
      (sign : x.delimiter ≠ ':') (code : i.code = .alternateDelimiter)
      (range : i.range = ⟨x.delimiterOffset, x.delimiterOffset + 1⟩)
      (offer : i.replacement = some ":") : Offered s call hasBody i
  | subOperator {call : Call} {hasBody : Bool} {i : Issue} {op owner : Operator} {first : Argument}
      (found : s.operators.find? call.name = some op)
      (unknown : addressee s.operators op call = .unknownSubOperator owner first)
      (code : i.code = .unknownSubOperator) (range : i.range = first.span)
      (offer : ∀ r, i.replacement = some r → r ∈ owner.subTable.names) : Offered s call hasBody i
  | inner {call : Call} {i : Issue} {op target : Operator} {label : String} {xs : List Argument}
      {n : Nat} {inner : Call} (found : s.operators.find? call.name = some op)
      (addressed : addressee s.operators op call = .operator target label xs)
      (length : chainLength? target xs none = some n)
      (left : surplus s.operators (xs.drop n) = .call inner) (more : Offered s inner false i) :
      Offered s call false i

/-- Arguments are left over only where there is no body. -/
theorem eq_none_of_chainLength? {body : Option Body} (h : chainLength? op xs body = some n) :
    body = none := by
  unfold chainLength? at h
  cases body with
  | none => rfl
  | some b => simp at h

/-- Every issue of a call offers nothing, is one of its body, or is one with an offer. -/
theorem CallIssue.quiet_or_offered {s : Checker} {body : Option Body} {i : Issue}
    (hi : CallIssue s call body i) :
    i.Quiet ∨ (∃ b ∈ body, i ∈ b.issues) ∨ Offered s call body.isSome i := by
  induction hi with
  | unknown h => exact Or.inr (Or.inr (.name h rfl rfl fun r => mem_of_bestName))
  | delimiter _ hx sign => exact Or.inr (Or.inr (.delimiter hx sign rfl rfl rfl))
  | unknownSubOperator h e =>
    exact Or.inr (Or.inr (.subOperator h e rfl rfl fun r => mem_of_bestName))
  | inner h e hn e' _ ih =>
    obtain rfl := eq_none_of_chainLength? hn
    rcases ih with quiet | ⟨b, hb, -⟩ | offered
    · exact Or.inl quiet
    · simp at hb
    · exact Or.inr (Or.inr (.inner h e hn e' offered))
  | body hb hi => exact Or.inr (Or.inl ⟨_, hb, hi⟩)
  | _ => exact Or.inl ⟨rfl, rfl⟩

/-- Every issue of a formula offers nothing, or one of its calls has it with an offer. -/
theorem quiet_or_offered (s : Checker) (f : Formula) :
    ∀ i ∈ f.check s, i.Quiet ∨ ∃ c ∈ f.calls, Offered s c.1 c.2 i := by
  induction f with
  | literal value span => simp [check]
  | «variable» name span => simp [check]
  | negation operand span ih => exact ih
  | binary op left right span ihl ihr =>
    refine forall_mem_append.2 ⟨fun i hi => ?_, fun i hi => ?_⟩
    · exact (ihl i hi).imp_right (.imp fun c h => ⟨mem_append_left _ h.1, h.2⟩)
    · exact (ihr i hi).imp_right (.imp fun c h => ⟨mem_append_right _ h.1, h.2⟩)
  | chain call =>
    intro i hi
    rcases (callIssue_of_mem hi).quiet_or_offered with quiet | ⟨b, hb, -⟩ | offered
    · exact Or.inl quiet
    · simp at hb
    · exact Or.inr ⟨(call, false), mem_singleton_self _, offered⟩
  | applied call body span ih =>
    intro i hi
    rcases (callIssue_of_mem hi).quiet_or_offered with quiet | ⟨b, hb, hi⟩ | offered
    · exact Or.inl quiet
    · rw [← Option.some.inj hb] at hi
      exact (ih i hi).imp_right (.imp fun c h => ⟨mem_cons_of_mem _ h.1, h.2⟩)
    · exact Or.inr ⟨(call, true), mem_cons_self, offered⟩

/-! ## What an offer is about -/

section

variable {s : Checker} {call : Call} {hasBody : Bool} {i : Issue}

/-- The name and the arguments of the call inside a chain are arguments of the chain. -/
theorem exists_head {operators : NameTable Operator} {target : Operator} {inner : Call}
    (addressed : addressee operators op call = .operator target label xs)
    (left : surplus operators (xs.drop n) = .call inner) :
    ∃ head ∈ call.arguments, inner.name = head.text ∧ inner.nameSpan = head.span ∧
      head.isNumber = false ∧ inner.arguments ⊆ call.arguments := by
  obtain ⟨head, rest, hxs, word, rfl⟩ := surplus_eq_call left
  have all : head :: rest ⊆ call.arguments := by
    rw [← hxs]
    exact ((drop_suffix n xs).trans (addressee_suffix addressed)).subset
  obtain ⟨hhead, others⟩ := cons_subset.1 all
  exact ⟨head, hhead, rfl, rfl, word, others⟩

/-- What is offered: a name that is known, or a colon. -/
theorem Offered.offer_cases (h : Offered s call hasBody i) {r : String}
    (hr : i.replacement = some r) :
    i.code = .unknownOperator ∧ r ∈ s.operators.names ∨ i.code = .alternateDelimiter ∧ r = ":" ∨
      i.code = .unknownSubOperator := by
  induction h with
  | name unknown code range offer => exact Or.inl ⟨code, offer r hr⟩
  | delimiter hx sign code range offer =>
    exact Or.inr (Or.inl ⟨code, Option.some.inj (hr.symm.trans offer)⟩)
  | subOperator found unknown code range offer => exact Or.inr (Or.inr code)
  | inner found addressed length left more ih => exact ih hr

/-- What is offered can be written at the range of the issue. -/
theorem Offered.exists_part (h : Offered s call hasBody i) {r : String}
    (hr : i.replacement = some r) :
    ∃ t, CallPart call t ∧ t.span = i.range ∧ t.text = r ∧
      (t.kind = .ident ∧ r ∈ knownNames s.operators ∨ t.kind = .colon ∧ r = ":") := by
  induction h with
  | name unknown code range offer =>
    exact ⟨_, .name r, range.symm, rfl, Or.inl ⟨rfl, names_subset_known _ (offer r hr)⟩⟩
  | delimiter hx sign code range offer =>
    obtain rfl := Option.some.inj (offer.symm.trans hr)
    exact ⟨_, .argument hx .delimiter, range.symm, rfl, Or.inr ⟨rfl, rfl⟩⟩
  | subOperator found unknown code range offer =>
    obtain ⟨hfirst, key, owned⟩ := addressee_unknown found unknown
    exact ⟨_, .argument hfirst (.word r), range.symm, rfl,
      Or.inl ⟨rfl, subNames_subset_known owned (offer r hr)⟩⟩
  | inner found addressed length left more ih =>
    obtain ⟨t, part, rest⟩ := ih hr
    obtain ⟨head, hhead, -, hspan, -, others⟩ := exists_head addressed left
    refine ⟨t, ?_, rest⟩
    cases part with
    | name text =>
      rw [hspan]
      exact .argument hhead (.word text)
    | argument hx part => exact .argument (others hx) part

/-- An unknown operator is a name or an argument that cannot be looked up. -/
theorem Offered.unknown_name (h : Offered s call hasBody i) (code : i.code = .unknownOperator) :
    (i.range = call.nameSpan ∧ s.operators.find? call.name = none) ∨
      ∃ x ∈ call.arguments, i.range = x.span ∧ s.operators.find? x.text = none := by
  induction h with
  | name unknown _ range offer => exact Or.inl ⟨range, unknown⟩
  | delimiter hx sign code' range offer => simp [code'] at code
  | subOperator found unknown code' range offer => simp [code'] at code
  | inner found addressed length left more ih =>
    obtain ⟨head, hhead, hname, hspan, -, others⟩ := exists_head addressed left
    right
    rcases ih code with ⟨range, unknown⟩ | ⟨x, hx, range, unknown⟩
    · exact ⟨head, hhead, range.trans hspan, hname ▸ unknown⟩
    · exact ⟨x, others hx, range, unknown⟩

/-- An issue about a delimiter stands at one that is no colon. -/
theorem Offered.other_delimiter (h : Offered s call hasBody i)
    (code : i.code = .alternateDelimiter) :
    ∃ x ∈ call.arguments, i.range.start = x.delimiterOffset ∧ x.delimiter ≠ ':' := by
  induction h with
  | name unknown code' range offer => simp [code'] at code
  | delimiter hx sign _ range offer => exact ⟨_, hx, by rw [range], sign⟩
  | subOperator found unknown code' range offer => simp [code'] at code
  | inner found addressed length left more ih =>
    obtain ⟨-, -, -, -, -, others⟩ := exists_head addressed left
    obtain ⟨x, hx, rest⟩ := ih code
    exact ⟨x, others hx, rest⟩

/-- An issue about a sub-operator stands at an argument. -/
theorem Offered.asked (h : Offered s call hasBody i) (code : i.code = .unknownSubOperator) :
    ∃ x ∈ call.arguments, i.range = x.span := by
  induction h with
  | name unknown code' range offer => simp [code'] at code
  | delimiter hx sign code' range offer => simp [code'] at code
  | subOperator found unknown _ range offer => exact ⟨_, (addressee_unknown found unknown).1, range⟩
  | inner found addressed length left more ih =>
    obtain ⟨-, -, -, -, -, others⟩ := exists_head addressed left
    obtain ⟨x, hx, range⟩ := ih code
    exact ⟨x, others hx, range⟩

end

/-! ## The same question again -/

/-- Arguments with `r` written at character `p`, wherever they stand now. -/
structure Rewords (p : Nat) (r : String) (φ : Argument → Argument) : Prop where
  there : ∀ x, x.span.start = p → argumentWord (φ x) = (r, false)
  elsewhere : ∀ x, x.span.start ≠ p → argumentWord (φ x) = argumentWord x
  start : ∀ x, (φ x).span.start = p ↔ x.span.start = p

/-- A sub-operator is chosen by what the first argument says. -/
theorem chooseSubOperator_of_word {owner sub : Operator} {text : String}
    (word : argumentWord x = (text, false)) (found : owner.subTable.find? text = some sub)
    (xs : List Argument) :
    chooseSubOperator owner label (x :: xs) = .operator sub (label ++ ":" ++ sub.name) xs := by
  obtain ⟨rfl, number⟩ := Prod.mk.inj word
  simp [chooseSubOperator, number, found]

section

variable {s : Checker} {p : Nat} {r : String} {φ : Argument → Argument}

theorem start_ne_of_nodup {first : Argument} (distinct : ((first :: xs).map (·.span.start)).Nodup)
    (hx : x ∈ xs) (hp : x.span.start = p) : first.span.start ≠ p := by
  rintro rfl
  rw [map_cons, nodup_cons, ← hp] at distinct
  exact distinct.1 (mem_map_of_mem hx)

/-- The arguments stay those of the same operator, if none of those before them is written anew. -/
theorem Rewords.addressee (hφ : Rewords p r φ) {operators : NameTable Operator}
    {op target : Operator} {label : String} {call call' : Call} {xs : List Argument}
    (h : addressee operators op call = .operator target label xs)
    (arguments : call'.arguments = call.arguments.map φ)
    (distinct : (call.arguments.map (·.span.start)).Nodup) {x : Argument} (hx : x ∈ xs)
    (hp : x.span.start = p) :
    ∃ label', addressee operators op call' = .operator target label' (xs.map φ) := by
  rcases addressee_cases operators op with ⟨owner, -, choose⟩ | none | own
  · rw [choose] at h
    obtain ⟨-, first, hxs, number, found⟩ := chooseSubOperator_eq_operator h
    have word : argumentWord first = (first.text, false) := by rw [argumentWord, number]
    rw [hxs] at distinct
    have elsewhere : first.span.start ≠ p := start_ne_of_nodup distinct hx hp
    refine ⟨call'.name ++ ":" ++ target.name, ?_⟩
    rw [choose, arguments, hxs, map_cons]
    exact chooseSubOperator_of_word ((hφ.elsewhere first elsewhere).trans word) found _
  · simp [none] at h
  · rw [own] at h
    obtain ⟨rfl, -, rfl⟩ := Addressee.operator.inj h
    exact ⟨_, by rw [own, arguments]⟩

/-- The call inside a chain stays the same, if its name is not written anew. -/
theorem Rewords.surplus (hφ : Rewords p r φ) {operators : NameTable Operator} {inner inner' : Call}
    (h : surplus operators xs = .call inner) (h' : surplus operators (xs.map φ) = .call inner')
    (distinct : (xs.map (·.span.start)).Nodup) (hx : x ∈ inner.arguments) (hp : x.span.start = p) :
    inner'.name = inner.name ∧ inner'.arguments = inner.arguments.map φ := by
  obtain ⟨head, rest, rfl, -, rfl⟩ := surplus_eq_call h
  obtain ⟨head', rest', hxs, -, rfl⟩ := surplus_eq_call h'
  obtain ⟨rfl, rfl⟩ := cons.inj hxs
  have word := hφ.elsewhere head (start_ne_of_nodup distinct hx hp)
  exact ⟨(Prod.mk.inj word).1, rfl⟩

/-- Where the arguments of a call have an owner, a sub-operator is asked for only in the call
inside. -/
theorem Offered.inside {target : Operator} (h : Offered s call hasBody j)
    (code : j.code = .unknownSubOperator) (found : s.operators.find? call.name = some op)
    (addressed : addressee s.operators op call = .operator target label xs) :
    ∃ n inner, chainLength? target xs none = some n ∧
      Formula.surplus s.operators (xs.drop n) = .call inner ∧ Offered s inner false j := by
  cases h with
  | name unknown code' range offer => simp [code'] at code
  | delimiter hx sign code' range offer => simp [code'] at code
  | subOperator found' unknown code' range offer =>
    obtain rfl := Option.some.inj (found.symm.trans found')
    simp [addressed] at unknown
  | inner found' addressed' length left more =>
    obtain rfl := Option.some.inj (found.symm.trans found')
    obtain ⟨rfl, -, rfl⟩ := Addressee.operator.inj (addressed.symm.trans addressed')
    exact ⟨_, _, length, left, more⟩

/-- The first argument, once it names a sub-operator, is not asked again. -/
theorem Rewords.first_answered (hφ : Rewords p r φ) {owner : Operator} {first : Argument}
    {call' : Call} (found : s.operators.find? call'.name = some op)
    (unknown : Formula.addressee s.operators op call = .unknownSubOperator owner first)
    (known : r ∈ owner.subTable.names) (hp : first.span.start = p)
    (distinct : (call.arguments.map (·.span.start)).Nodup)
    (arguments : call'.arguments = call.arguments.map φ) (h : Offered s call' hasBody j)
    (code : j.code = .unknownSubOperator) : j.range.start ≠ p := by
  rcases addressee_cases s.operators op with ⟨owner', -, choose⟩ | none | own
  · rw [choose] at unknown
    obtain ⟨rfl, rest, hxs⟩ := chooseSubOperator_eq_unknown unknown
    obtain ⟨sub, hsub⟩ := Operator.find?_of_mem_names known
    have addressed : Formula.addressee s.operators op call' =
        .operator sub (call'.name ++ ":" ++ sub.name) (rest.map φ) := by
      rw [choose, arguments, hxs]
      exact chooseSubOperator_of_word (hφ.there first hp) hsub _
    -- whatever is asked further on stands behind this argument
    obtain ⟨n, inner, -, left, more⟩ := h.inside code found addressed
    obtain ⟨y, hy, range⟩ := more.asked code
    have hmem : y ∈ rest.map φ := mem_of_mem_drop ((surplus_suffix left).subset hy)
    obtain ⟨x, hx, rfl⟩ := mem_map.1 hmem
    intro e
    rw [hxs] at distinct
    rw [range] at e
    exact start_ne_of_nodup distinct hx ((hφ.start x).1 e) hp
  · simp [none] at unknown
  · simp [own] at unknown

/-- The argument that is written anew is asked for the same sub-operators, and what is offered is
one of them: nothing is unknown there any more. -/
theorem Offered.answered {i : Issue} (h : Offered s call hasBody i)
    (code : i.code = .unknownSubOperator) (hr : i.replacement = some r) (hp : i.range.start = p)
    (distinct : (call.arguments.map (·.span.start)).Nodup) (hφ : Rewords p r φ) {call' : Call}
    (name : call'.name = call.name) (arguments : call'.arguments = call.arguments.map φ)
    (hj : Offered s call' hasBody j) (code' : j.code = .unknownSubOperator) :
    j.range.start ≠ p := by
  -- along the calls inside each other, down to the one that asks
  induction h generalizing call' with
  | name unknown code'' range offer => simp [code''] at code
  | delimiter hx sign code'' range offer => simp [code''] at code
  | subOperator found unknown _ range offer =>
    rw [← name] at found
    exact hφ.first_answered found unknown (offer r hr) (range ▸ hp) distinct arguments hj code'
  | @inner call i op target label xs n inner found addressed length left more ih =>
    obtain ⟨x, hx, range⟩ := more.asked code
    have hxp : x.span.start = p := by rw [← range, hp]
    have hxs : x ∈ xs.drop n := (surplus_suffix left).subset hx
    have behind : xs.drop n <:+ call.arguments :=
      (drop_suffix n xs).trans (addressee_suffix addressed)
    have distinct' : ((xs.drop n).map (·.span.start)).Nodup :=
      distinct.sublist (behind.sublist.map _)
    obtain ⟨label', addressed'⟩ := hφ.addressee addressed arguments distinct
      (mem_of_mem_drop hxs) hxp
    rw [← name] at found
    obtain ⟨n', inner', length', left', more'⟩ := hj.inside code' found addressed'
    have same : chainLength? target (xs.map φ) none = chainLength? target xs none := by
      simp [chainLength?]
    obtain rfl : n = n' := Option.some.inj (length.symm.trans (same.symm.trans length'))
    rw [← map_drop] at left'
    obtain ⟨hname, harguments⟩ := hφ.surplus left left' distinct' hx hxp
    exact ih code hr hp (distinct'.sublist ((surplus_suffix left).sublist.map _)) hname harguments
      more'

end

/-! ## The formula afterwards -/

theorem resize_eq_start {r : CharRange} {k : Nat} (hn : 0 < n) :
    resize r n k = r.start ↔ k = r.start := by
  unfold resize
  split <;> omega

/-- Writing at a character and moving everything along rewords the argument there. -/
theorem rewords_writeAt (hn : 0 < n) (r : String) :
    Rewords range.start r fun x => (x.writeAt range.start r).mapPos (resize range n) where
  there x hx := by simp [argumentWord, Argument.mapPos, Argument.writeAt, hx]
  elsewhere x hx := by simp [argumentWord, Argument.mapPos, Argument.writeAt, hx]
  start x := resize_eq_start hn

theorem CallPart.mem_marks {t : Token} (h : CallPart call t) : t.span.start ∈ callMarks call := by
  cases h with
  | name text => exact mem_cons_self
  | @argument x t hx part =>
    refine mem_cons_of_mem _ (mem_flatMap_of_mem hx ?_)
    cases part with
    | word text => simp [argumentMarks]
    | delimiter => simp [argumentMarks]

/-- A character belongs to one call at most. -/
theorem eq_of_mem_marks {f : Formula} (distinct : f.marks.Nodup) {c d : Call × Bool}
    (hc : c ∈ f.calls) (hd : d ∈ f.calls) {p : Nat} (hp : p ∈ callMarks c.1)
    (hp' : p ∈ callMarks d.1) : c = d := by
  by_contra hne
  have apart := (nodup_flatMap.1 distinct).2
  have : Std.Symm (Function.onFun List.Disjoint fun c : Call × Bool => callMarks c.1) :=
    ⟨fun _ _ h _ hd hc => h hc hd⟩
  exact apart.forall hc hd hne hp hp'

theorem start_mem_marks (hx : x ∈ xs) : x.span.start ∈ xs.flatMap argumentMarks :=
  mem_flatMap_of_mem hx (by simp [argumentMarks])

theorem nodup_argument_starts (h : (callMarks call).Nodup) :
    (call.arguments.map (·.span.start)).Nodup := by
  have sub (xs : List Argument) :
      (xs.map (·.span.start)).Sublist (xs.flatMap argumentMarks) := by
    induction xs with
    | nil => exact List.Sublist.refl _
    | cons x xs ih => exact (ih.cons_cons x.span.start).cons x.delimiterOffset
  exact (nodup_cons.1 h).2.sublist (sub _)

/-- Operators whose names, and those of the operators inside them, are names in formulas. -/
def HasIdents (operators : List Operator) : Prop :=
  ∀ op ∈ operators, (∀ name ∈ op.allNames, IsIdent name) ∧
    ∀ sub ∈ op.subOperators, ∀ name ∈ sub.allNames, IsIdent name

theorem HasIdents.isIdent {operators : List Operator} (h : HasIdents operators) {name : String}
    (hname : name ∈ knownNames (Operator.table operators)) : IsIdent name := by
  obtain ⟨e, he, hname⟩ := mem_flatMap.1 hname
  obtain ⟨hitem, hown, -⟩ := NameTable.mem_entries_build he
  obtain ⟨own, inside⟩ := h e.item hitem
  rcases mem_cons.1 hname with rfl | hname
  · exact own _ hown
  · obtain ⟨e', he', rfl⟩ := mem_map.1 hname
    obtain ⟨hsub, hname, -⟩ := NameTable.mem_entries_build he'
    exact inside _ hsub _ hname

section

variable {s : Checker} {f : Formula} {c : Call × Bool} {i j : Issue} {r : String} {n : Nat}

theorem arguments_writeAt_mapPos (p : Nat) (r : String) (m : Nat → Nat) (call : Call) :
    ((call.writeAt p r).mapPos m).arguments =
      call.arguments.map fun x => (x.writeAt p r).mapPos m := by
  simp [Call.writeAt, Call.mapPos]

theorem calls_writeAt_mapPos {p : Nat} {m : Nat → Nat}
    (h : c ∈ ((f.writeAt p r).mapPos m).calls) :
    ∃ d ∈ f.calls, c = ((d.1.writeAt p r).mapPos m, d.2) := by
  rw [Formula.mapPos, calls_mapCalls, Formula.writeAt, calls_mapCalls, map_map] at h
  obtain ⟨d, hd, rfl⟩ := mem_map.1 h
  exact ⟨d, hd, rfl⟩

/-- No operator is unknown where a known name is written. -/
theorem Offered.name_known (hn : 0 < n) {d : Call} (known : s.operators.find? r = some op)
    (h : Offered s ((d.writeAt range.start r).mapPos (resize range n)) hasBody j)
    (code : j.code = .unknownOperator) : j.range.start ≠ range.start := by
  intro e
  rcases h.unknown_name code with ⟨hrange, unknown⟩ | ⟨y, hy, hrange, unknown⟩
  · have there : d.nameSpan.start = range.start :=
      (resize_eq_start hn).1 ((congrArg CharRange.start hrange).symm.trans e)
    simp [Call.mapPos, Call.writeAt, there, known] at unknown
  · rw [arguments_writeAt_mapPos] at hy
    obtain ⟨x, -, rfl⟩ := mem_map.1 hy
    have there : x.span.start = range.start :=
      (resize_eq_start hn).1 ((congrArg CharRange.start hrange).symm.trans e)
    simp [Argument.mapPos, Argument.writeAt, there, known] at unknown

/-- No delimiter is refused where a colon is written. -/
theorem Offered.delimiter_colon (hn : 0 < n) {d : Call}
    (h : Offered s ((d.writeAt range.start ":").mapPos (resize range n)) hasBody j)
    (code : j.code = .alternateDelimiter) : j.range.start ≠ range.start := by
  intro e
  obtain ⟨y, hy, hstart, sign⟩ := h.other_delimiter code
  rw [arguments_writeAt_mapPos] at hy
  obtain ⟨x, -, rfl⟩ := mem_map.1 hy
  have there : x.delimiterOffset = range.start := (resize_eq_start hn).1 (hstart.symm.trans e)
  simp [Argument.mapPos, Argument.writeAt, there] at sign

/-- Once what is offered is written, the issue is gone. -/
theorem Offered.repaired {operators : List Operator}
    (table : s.operators = Operator.table operators) (distinct : f.marks.Nodup) (hc : c ∈ f.calls)
    (h : Offered s c.1 c.2 i) (hr : i.replacement = some r) (hn : 0 < n)
    (hj : j ∈ ((f.writeAt i.range.start r).mapPos (resize i.range n)).check s)
    (code : j.code = i.code) : j.range.start ≠ i.range.start := by
  rcases quiet_or_offered s _ j hj with quiet | ⟨c', hc', h'⟩
  · have silent := quiet.code
    rw [code] at silent
    rcases h.offer_cases hr with ⟨e, -⟩ | ⟨e, -⟩ | e <;> simp [e, Code.offers] at silent
  · obtain ⟨d, hd, rfl⟩ := calls_writeAt_mapPos hc'
    rcases h.offer_cases hr with ⟨e, listed⟩ | ⟨e, rfl⟩ | e
    · obtain ⟨op, known⟩ := Operator.find?_of_mem_names (table ▸ listed)
      exact h'.name_known hn (table ▸ known) (code.trans e)
    · exact h'.delimiter_colon hn (code.trans e)
    · intro start
      obtain ⟨x, hx, hrange⟩ := h.asked e
      obtain ⟨y, hy, hrange'⟩ := h'.asked (code.trans e)
      rw [arguments_writeAt_mapPos] at hy
      obtain ⟨z, hz, rfl⟩ := mem_map.1 hy
      have there : z.span.start = i.range.start :=
        (resize_eq_start hn).1 ((congrArg CharRange.start hrange').symm.trans start)
      have mark : i.range.start ∈ c.1.arguments.flatMap argumentMarks :=
        hrange ▸ start_mem_marks hx
      obtain rfl : c = d := eq_of_mem_marks distinct hc hd (mem_cons_of_mem _ mark)
        (mem_cons_of_mem _ (there ▸ start_mem_marks hz))
      have marks := (nodup_flatMap.1 distinct).1 c hc
      have name : c.1.nameSpan.start ≠ i.range.start := fun e =>
        (nodup_cons.1 marks).1 (e ▸ mark)
      exact h.answered e hr rfl (nodup_argument_starts marks) (rewords_writeAt hn r)
        (by simp [Call.mapPos, Call.writeAt, name]) (arguments_writeAt_mapPos _ _ _ _) h'
        (code.trans e) start

end

/-- A formula with a replacement made. Only names that are not known and delimiters that are not
allowed have one. Whichever of them the issue is about, no other part of a call starts where it
does; the new text is read as the old formula with the replacement in that one place; and the
check has nothing of the kind to say about that place any more. -/
theorem replacement_repairs {operators : List Operator} (idents : HasIdents operators)
    (limit : Nat) (allowX : Bool) {text : String} {f : Formula} (parsed : parse text = .ok f)
    {i : Issue} (hi : i ∈ f.check ⟨Operator.table operators, limit, allowX⟩) {r : String}
    (hr : i.replacement = some r) :
    f.marks.count i.range.start = 1 ∧
      ∃ g, parse (String.ofList (i.range.replace r.toList text.toList)) = .ok g ∧
        g.bare = (f.writeAt i.range.start r).bare ∧
        ∀ j ∈ g.check ⟨Operator.table operators, limit, allowX⟩,
          j.code = i.code → j.range.start ≠ i.range.start := by
  rcases quiet_or_offered _ f i hi with quiet | ⟨c, hc, offered⟩
  · simp [quiet.replacement] at hr
  · obtain ⟨t, part, span, rfl, kind⟩ := offered.exists_part hr
    have lexeme : TokenText t.kind t.text.toList := by
      rcases kind with ⟨kind, known⟩ | ⟨kind, colon⟩
      · rw [kind]
        exact (idents.isIdent known).tokenText
      · rw [kind, colon]
        exact .sign rfl
    have distinct := nodup_marks parsed
    have mark : i.range.start ∈ f.marks := span ▸ mem_flatMap_of_mem hc part.mem_marks
    have read := parse_replace parsed hc part lexeme
    rw [span] at read
    refine ⟨List.count_eq_one_of_mem distinct mark, _, read, bare_mapPos _ _, ?_⟩
    intro j hj code
    exact offered.repaired rfl distinct hc hr (length_pos_iff.2 lexeme.ne_nil) hj code

/-- An operator that asks for a sub-operator. -/
def picker : Operator :=
  ⟨"pick", [], none, false, [], [], none, [⟨"a", ["first"], none, false, [[]], [], none, []⟩]⟩

theorem hasIdents_picker : HasIdents [wrapper, picker] := by
  have f : IsIdent "f" := ⟨⟨.ident, "f", ⟨0, 1⟩⟩, rfl, rfl, by decide +kernel⟩
  have pick : IsIdent "pick" := ⟨⟨.ident, "pick", ⟨0, 4⟩⟩, rfl, rfl, by decide +kernel⟩
  have a : IsIdent "a" := ⟨⟨.ident, "a", ⟨0, 1⟩⟩, rfl, rfl, by decide +kernel⟩
  have first : IsIdent "first" := ⟨⟨.ident, "first", ⟨0, 5⟩⟩, rfl, rfl, by decide +kernel⟩
  simp [HasIdents, wrapper, picker, Operator.allNames, f, pick, a, first]

/-- A negative number in the place of a sub-operator, in a call inside a chain. -/
theorem replacement_repairs_nested :
    ∃ f i, parse "f:pick: - 5 * 2" = .ok f ∧
      i ∈ f.check ⟨Operator.table [wrapper, picker], 3, false⟩ ∧ i.code = .unknownSubOperator ∧
      i.range = ⟨8, 11⟩ ∧ i.replacement = some "a" ∧ f.marks.count 8 = 1 ∧
      ∃ g, parse "f:pick: a * 2" = .ok g ∧ g.bare = (f.writeAt 8 "a").bare ∧
        ∀ j ∈ g.check ⟨Operator.table [wrapper, picker], 3, false⟩,
          j.code = .unknownSubOperator → j.range.start ≠ 8 := by
  have reported : (parse "f:pick: - 5 * 2").map (fun f =>
      (f.check ⟨Operator.table [wrapper, picker], 3, false⟩).map fun i =>
        (i.code, i.range, i.replacement)) =
      .ok [(.unknownSubOperator, ⟨8, 11⟩, some "a")] := by
    decide +kernel
  obtain ⟨f, parsed, reported⟩ := exists_of_map_eq_ok reported
  have replaced : String.ofList (CharRange.replace ⟨8, 11⟩ "a".toList "f:pick: - 5 * 2".toList) =
      "f:pick: a * 2" := by
    decide +kernel
  obtain ⟨i, hi, e⟩ := mem_map.1 (reported ▸ mem_cons_self)
  obtain ⟨code, e⟩ := Prod.mk.inj e
  obtain ⟨range, replacement⟩ := Prod.mk.inj e
  have repaired := replacement_repairs hasIdents_picker 3 false parsed hi replacement
  rw [range, replaced, code] at repaired
  exact ⟨_, i, parsed, hi, code, range, replacement, repaired⟩

end Formula

end ModCheck
