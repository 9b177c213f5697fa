import ModCheck.Proofs.FormulaReaders

/-
  The grammar of formulas. `Written level f ts` says that the tokens `ts`, all of them and in
  order, are a formula `f` of a level: a sum of products of operands. It also says on which
  characters every part stands.
-/

namespace ModCheck.Formula

/-- The tokens of an argument, the delimiter before it included. -/
inductive ArgumentWritten : Argument → List Token → Prop
  | number {d t : Token} {c : Char} {value : Binary64} (sign : delimiter? d = some c)
      (kind : t.kind = .number value) :
      ArgumentWritten ⟨t.text, true, t.span, c, d.span.start⟩ [d, t]
  | name {d t : Token} {c : Char} (sign : delimiter? d = some c) (kind : t.kind = .ident) :
      ArgumentWritten ⟨t.text, false, t.span, c, d.span.start⟩ [d, t]
  | negative {d m t : Token} {c : Char} {value : Binary64} (sign : delimiter? d = some c)
      (minus : m.kind = .minus) (kind : t.kind = .number value) :
      ArgumentWritten ⟨"-" ++ t.text, true, m.span.through t.span, c, d.span.start⟩ [d, m, t]

inductive ArgumentsWritten : List Argument → List Token → Prop
  | nil : ArgumentsWritten [] []
  | cons {x : Argument} {xs : List Argument} {ts us : List Token} (first : ArgumentWritten x ts)
      (rest : ArgumentsWritten xs us) : ArgumentsWritten (x :: xs) (ts ++ us)

/-- The chain behind a name that ends at `nameEnd`: its arguments, where it ends, its tokens. A
colon may stand alone, and otherwise comes before the first argument. -/
inductive ChainWritten (nameEnd : Nat) : List Argument → Nat → List Token → Prop
  | absent : ChainWritten nameEnd [] nameEnd []
  | bare {t : Token} (colon : t.kind = .colon) : ChainWritten nameEnd [] t.span.stop [t]
  | full {xs : List Argument} {x : Argument} {t : Token} {ts : List Token}
      (colon : t.kind = .colon) (written : ArgumentsWritten (xs ++ [x]) (t :: ts)) :
      ChainWritten nameEnd (xs ++ [x]) x.span.stop (t :: ts)

/-- The tokens of a formula. A colon that stands alone has no parenthesis behind it. -/
inductive Written : Level → Formula → List Token → Prop
  | literal {t : Token} {value : Binary64} (kind : t.kind = .number value) :
      Written .operand (.literal value t.span) [t]
  | name {t : Token} (kind : t.kind = .ident) :
      Written .operand (.variable t.text t.span) [t]
  | negation {m : Token} {f : Formula} {ts : List Token} (minus : m.kind = .minus)
      (operand : Written .operand f ts) :
      Written .operand (.negation f (m.span.through f.span)) (m :: ts)
  | chain {name : Token} {xs : List Argument} {chainEnd : Nat} {ts : List Token}
      (kind : name.kind = .ident) (chain : ChainWritten name.span.stop xs chainEnd ts)
      (called : ts ≠ []) :
      Written .operand (.chain ⟨name.text, name.span, xs, ⟨name.span.start, chainEnd⟩⟩) (name :: ts)
  | applied {name opening closing : Token} {xs : List Argument} {chainEnd : Nat} {body : Formula}
      {ts us : List Token} (kind : name.kind = .ident)
      (chain : ChainWritten name.span.stop xs chainEnd ts) (noBare : xs = [] → ts = [])
      (opens : opening.kind = .leftParen) (inner : Written .sum body us)
      (closes : closing.kind = .rightParen) :
      Written .operand
        (.applied ⟨name.text, name.span, xs, ⟨name.span.start, closing.span.stop⟩⟩ body
          ⟨opening.span.start, closing.span.stop⟩)
        (name :: (ts ++ opening :: (us ++ [closing])))
  | ofBelow {level : Level} {f : Formula} {ts : List Token} (upper : level ≠ .operand)
      (part : Written level.below f ts) : Written level f ts
  | joined {level : Level} {left right : Formula} {ts us : List Token} {sign : Token}
      {op : BinaryOperator} (first : Written level left ts)
      (operator : level.operator? sign = some op) (second : Written level.below right us) :
      Written level (join op left right) (ts ++ sign :: us)

end ModCheck.Formula
