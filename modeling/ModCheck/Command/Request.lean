import ModCheck.Command.Arguments
import ModCheck.Message.Code
import ModCheck.Path

/-
  What the command line asks for: a check of files, the outline of a formula, or words about the
  program itself.
-/

namespace ModCheck.Command

/-- What a check prints. -/
inductive CheckFormat where
  | human
  | json
  | github
deriving DecidableEq, Repr

def CheckFormat.ofName? : String → Option CheckFormat
  | "human" => some .human
  | "json" => some .json
  | "github" => some .github
  | _ => none

/-- What a check does with corrections. -/
inductive FixMode where
  | none
  | write
  /-- Only count them. -/
  | dryRun
deriving DecidableEq, Repr

structure CheckRequest where
  paths : List Path
  settingsFile : Option Path
  schemaDirectory : Option Path
  format : CheckFormat
  /-- Milder messages are not printed. -/
  least : Severity
  fixes : FixMode
  noColour : Bool
deriving DecidableEq, Repr

structure FormulaRequest where
  formula : String
  allowX : Bool
  settingsFile : Option Path
  schemaDirectory : Option Path
deriving DecidableEq, Repr

inductive Request where
  | overview
  | version (detailed : Bool)
  | check (request : CheckRequest)
  | formula (request : FormulaRequest)
deriving DecidableEq, Repr

/-! ## Options -/

/-- Whether a word can be a path. -/
def isPathText (word : String) : Bool :=
  !word.isEmpty

/-- Options that can be given before and after the name of a command. -/
def globalOptions : List OptionSpec :=
  [⟨"config", some 'c', .value isPathText⟩, ⟨"verbose", some 'v', .counter⟩,
    ⟨"no-color", none, .flag⟩, ⟨"help", some 'h', .stop .help⟩]

def headOptions : List OptionSpec :=
  globalOptions ++ [⟨"version", some 'V', .stop .version⟩]

def checkGrammar : Grammar where
  options := globalOptions ++
    [⟨"schema-dir", none, .value isPathText⟩,
      ⟨"format", some 'f', .value fun v => (CheckFormat.ofName? v).isSome⟩,
      ⟨"min-severity", none, .value fun v => (Severity.ofLabel? v).isSome⟩,
      ⟨"write", none, .flag⟩, ⟨"dry-run", none, .flag⟩]
  maxWords := none
  acceptsWord := isPathText

def formulaGrammar : Grammar where
  options := globalOptions ++
    [⟨"allow-x", none, .flag⟩, ⟨"schema-dir", none, .value isPathText⟩]
  maxWords := some 1
  acceptsWord _ := true

def versionGrammar : Grammar where
  options := globalOptions ++ [⟨"detailed", none, .flag⟩]
  maxWords := some 0
  acceptsWord _ := false

/-! ## Requests -/

/-- The settings file given nearest to the end. -/
def settingsFile? (head given : Given) : Option Path :=
  ((given.value? "config").or (head.value? "config")).map (⟨·⟩)

def readCheck (head : Given) (words : List String) : Except Stop Request := do
  let given ← readAll checkGrammar words {}
  if given.has "write" && given.has "dry-run" then .error .usage
  else
    .ok (.check {
      paths := if given.words.isEmpty then [⟨"."⟩] else given.words.map (⟨·⟩)
      settingsFile := settingsFile? head given
      schemaDirectory := (given.value? "schema-dir").map (⟨·⟩)
      format := ((given.value? "format").bind CheckFormat.ofName?).getD .human
      least := ((given.value? "min-severity").bind Severity.ofLabel?).getD .info
      fixes := if given.has "write" then .write else if given.has "dry-run" then .dryRun else .none
      noColour := head.has "no-color" || given.has "no-color" })

def readFormula (head : Given) (words : List String) : Except Stop Request := do
  let given ← readAll formulaGrammar words {}
  match given.words with
  | [formula] =>
    .ok (.formula {
      formula
      allowX := given.has "allow-x"
      settingsFile := settingsFile? head given
      schemaDirectory := (given.value? "schema-dir").map (⟨·⟩) })
  | _ => .error .usage

def readVersion (words : List String) : Except Stop Request := do
  let given ← readAll versionGrammar words {}
  .ok (.version (given.has "detailed"))

/-- The names of commands, those they also go by included. -/
def commandNames : List String :=
  ["check", "lint", "formula", "version", "help"]

/-- Help about the program or about one command. -/
def readHelp (words : List String) : Except Stop Request :=
  match words with
  | [] => .error .help
  | [name] => .error (if commandNames.contains name then .help else .usage)
  | _ => .error .usage

/-- Reads a command line. Without a command it asks for an overview. -/
def Request.read (words : List String) : Except Stop Request := do
  match ← readHead headOptions words {} with
  | (_, []) => .ok .overview
  | (head, name :: rest) =>
    match name with
    | "check" => readCheck head rest
    | "lint" => readCheck head rest
    | "formula" => readFormula head rest
    | "version" => readVersion rest
    | "help" => readHelp rest
    | _ => .error .usage

end ModCheck.Command
