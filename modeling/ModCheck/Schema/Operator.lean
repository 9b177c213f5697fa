import ModCheck.Schema.NameTable

/-
  Formula operators: the names they go by, the arguments they take, and the operators inside them.
-/

namespace ModCheck

/-- What an argument accepts. -/
inductive ArgumentKind where
  | numeric
  /-- A formula of its own; only the last argument. -/
  | formula
  /-- Any name or number. -/
  | atom
deriving DecidableEq, Repr

/-- An argument of a usage. -/
structure ArgumentSpec where
  name : String
  kind : ArgumentKind
deriving DecidableEq, Repr

/-- A list of arguments that an operator accepts. -/
abbrev Usage := List ArgumentSpec

/-- The arguments that are not formulas. -/
def plainArguments (usage : Usage) : List ArgumentSpec :=
  usage.filter (·.kind != .formula)

/-- Whether the last argument is a formula. -/
def endsInFormula (usage : Usage) : Bool :=
  usage.getLast?.any (·.kind == .formula)

/-- An operator. -/
structure Operator where
  name : String
  aliases : List String
  category : Option String
  /-- Written as `name(…)` instead of `name:…`. -/
  functionStyle : Bool
  usages : List Usage
  /-- Signs that may stand between arguments beside the colon. -/
  alternateDelimiters : List String
  /-- The operator whose sub-operators it shares. -/
  delegatesTo : Option String
  /-- Operators that its first argument chooses from. -/
  subOperators : List Operator

namespace Operator

/-- The name and the aliases. -/
def allNames (op : Operator) : List String :=
  op.name :: op.aliases

/-- The operators of a list by name; upper and lower case differ. -/
def table (operators : List Operator) : NameTable Operator :=
  .build id allNames operators

def subTable (op : Operator) : NameTable Operator :=
  table op.subOperators

def hasSubOperators (op : Operator) : Bool :=
  !op.subOperators.isEmpty

/-- The numbers of plain arguments that usages take, ascending and each once. -/
def arities (op : Operator) : List Nat :=
  ((op.usages.map fun usage => (plainArguments usage).length).mergeSort).eraseReps

/-- A usage with `count` plain arguments, preferably one that ends in a formula as asked. -/
def usageWith? (op : Operator) (count : Nat) (formula : Bool) : Option Usage :=
  (op.usages.find? fun usage =>
      (plainArguments usage).length == count && endsInFormula usage == formula).or
    (op.usages.find? fun usage => (plainArguments usage).length == count)

/-- Whether some usage ends in a formula. -/
def takesFormula (op : Operator) : Bool :=
  op.usages.any endsInFormula

end Operator

/-- What is known about formulas. -/
structure FormulaSchema where
  documentationUrl : Option String
  operators : NameTable Operator

namespace FormulaSchema

def empty : FormulaSchema :=
  ⟨none, .empty⟩

/-- Where an operator is documented: below `base`, or else below the address of the schema. -/
def linkTo? (schema : FormulaSchema) (base : Option String) (operator : String) : Option String :=
  (base.or schema.documentationUrl).map fun url =>
    String.ofList (url.toList.reverse.dropWhile (· == '/')).reverse ++ "#" ++ operator

end FormulaSchema

end ModCheck
