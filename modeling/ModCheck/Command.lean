import ModCheck.Command.Request
import ModCheck.Correction.Apply
import ModCheck.FileSystem.Selection
import ModCheck.Formula.Outline
import ModCheck.Report.Summary
import ModCheck.Schema.Load
import ModCheck.Settings.Load

/-
  Carrying out what the command line asks for. Nothing is printed here: a run gives its output
  and its exit code.
-/

namespace ModCheck.Command

variable {m : Type → Type} [Monad m]

/-! ## Outcomes -/

/-- Why a run could not be carried out. -/
inductive Failure where
  | usage
  | settings (fault : Fault)
  | schema (path : Path) (fault : Fault)
  | selection (fault : SelectionFault)
deriving DecidableEq, Repr

/-- A fault with its cause; what the system says about a file is said twice. -/
def faultText (fault : Fault) : String :=
  match fault with
  | .io _ cause => fault.message ++ ": " ++ cause.message
  | _ => fault.message

def Failure.text : Failure → String
  | .usage => "error: the command line cannot be understood"
  | .settings fault => "error: " ++ faultText fault
  | .schema path fault =>
    "error: failed to load schema from " ++ path.text ++ ": " ++ faultText fault
  | .selection fault => "error: " ++ fault.message

/-- The output of a run, and whether it found errors. -/
structure Output where
  text : String
  foundErrors : Bool
deriving DecidableEq, Repr

/-- What is left after a run. -/
structure Outcome where
  exit : Nat
  text : String
  failure : Option Failure
deriving DecidableEq, Repr

def Outcome.of : Except Failure Output → Outcome
  | .ok output => ⟨if output.foundErrors then 1 else 0, output.text, none⟩
  | .error failure => ⟨2, "", some failure⟩

/-! ## Settings and schema -/

/-- Where the settings are looked for: next to the first path, or in the current directory. -/
def settingsStart (fs : FileSystem m) (paths : List Path) : m Path := do
  match paths with
  | [] => return ⟨"."⟩
  | path :: _ =>
    match ← fs.kind? path with
    | some .file =>
      match path.parent? with
      | some parent => return if parent.text.isEmpty then ⟨"."⟩ else parent
      | none => return ⟨"."⟩
    | some .directory => return path
    | none => return ⟨"."⟩

/-- The settings and the schema they lead to. Without a settings file paths of the schema start in
the current directory. -/
def prepare (fs : FileSystem m) (file schemaDirectory : Option Path) (paths : List Path) :
    m (Except Failure (Settings × Schema)) := do
  match ← Settings.load fs file (← settingsStart fs paths) with
  | .error fault => return .error (.settings fault)
  | .ok loaded =>
    let base := if loaded.file.isSome then loaded.base else ⟨"."⟩
    let schemaPaths := match schemaDirectory with
      | some directory => SchemaPaths.inDirectory directory
      | none => loaded.settings.schema.under base
    match ← Schema.load fs schemaPaths with
    | .error fault => return .error (.schema schemaPaths.objects fault)
    | .ok schema => return .ok (loaded.settings, schema)

/-! ## Checks -/

/-- The sources of files; those that cannot be read are left out. -/
def readSources (fs : FileSystem m) (files : List Path) : m (List SourceFile) :=
  files.filterMapM fun file => do
    match ← fs.read file with
    | .error _ => return none
    | .ok source => return some ⟨file.text, source⟩

/-- Applies corrections to a file and counts them. A file that cannot be read, changed or written
counts for nothing. -/
def correctFile (fs : FileSystem m) (mode : FixMode) (corrections : List Correction)
    (file : String) :
    m Nat := do
  match ← fs.read ⟨file⟩ with
  | .error _ => return 0
  | .ok source =>
    match Correction.applyAll source corrections with
    | .error _ => return 0
    | .ok outcome =>
      if mode == .write && outcome.changed then
        match ← fs.write ⟨file⟩ outcome.output with
        | .error _ => return 0
        | .ok _ => return outcome.applied
      else return outcome.applied

/-- Applies the corrections of each file and counts them all. -/
def correctFiles (fs : FileSystem m) (mode : FixMode) (corrections : List Correction)
    (sources : List SourceFile) : m Nat :=
  if mode == .none then return 0
  else
    sources.foldlM (fun count source =>
      match corrections.filter (·.file == source.file) with
      | [] => return count
      | own => return count + (← correctFile fs mode own source.file)) 0

def checkOutput (request : CheckRequest) (colourAllowed : Bool) (messages : List Message)
    (sources : List SourceFile) (summary : Summary) : String :=
  match request.format with
  | .human => Report.checkText messages sources summary (colourAllowed && !request.noColour)
  | .json => (Report.checkJson messages summary).toPretty ++ "\n"
  | .github => Report.checkAnnotations messages

/-- Checks files and fixes them if asked to. -/
def check (fs : FileSystem m) (colourAllowed : Bool) (request : CheckRequest) :
    m (Except Failure Output) := do
  match ← prepare fs request.settingsFile request.schemaDirectory request.paths with
  | .error failure => return .error failure
  | .ok (settings, schema) =>
    match ← settings.files.find Glob.language fs request.paths with
    | .error fault => return .error (.selection fault)
    | .ok files =>
      let sources ← readSources fs files
      let found := validate schema settings.options sources
      let fixes ← correctFiles fs request.fixes found.corrections sources
      let summary : Summary := {
        filesChecked := sources.length
        errors := found.errors.length
        warnings := found.warnings.length
        hints := found.hints.length
        info := found.info.length
        fixesApplied := fixes
        dryRun := request.fixes == .dryRun }
      let reported := found.atLeast request.least
      return .ok ⟨checkOutput request colourAllowed reported sources summary, found.hasErrors⟩

/-! ## Formulas -/

/-- An issue of a formula in words. -/
def issueText (issue : Issue) : String :=
  issue.severity.label ++ "[" ++ issue.code.text ++ "]: " ++ issue.text ++ " (characters "
    ++ toString issue.range.start ++ ".." ++ toString issue.range.stop ++ ")\n"
    ++ String.join (issue.suggestion.toList.map fun s => "  = help: " ++ s ++ "\n")

/-- What is wrong with a formula, or its outline if nothing is. -/
def formulaOutput (schema : FormulaSchema) (text : String) (allowX : Bool) : Output :=
  match Formula.parse text with
  | .error fault =>
    ⟨"error[formula/syntax]: " ++ fault.message ++ " (at character "
      ++ toString fault.offset ++ ")\n", true⟩
  | .ok formula =>
    match Formula.check ⟨schema.operators, defaultDistance, allowX⟩ formula with
    | [] => ⟨formula.outline.render ++ "\n", false⟩
    | issues => ⟨String.join (issues.map issueText), issues.any (·.severity == .error)⟩

def formula (fs : FileSystem m) (request : FormulaRequest) : m (Except Failure Output) := do
  match ← prepare fs request.settingsFile request.schemaDirectory [] with
  | .error failure => return .error failure
  | .ok (_, schema) => return .ok (formulaOutput schema.formulas request.formula request.allowX)

/-! ## The program itself -/

def version : String := "0.1.0"

def overview : String :=
  "modlint: schema-driven validator for bracket/semicolon mod files

Usage: modlint [OPTIONS] [COMMAND]

Commands:
  check    Validate mod files against the schema
  formula  Parse and validate a single formula
  version  Show version information
  help     Print this message or the help of the given subcommand(s)

Options:
  -c, --config <CONFIG>  Path to configuration file (.modlintrc.toml/.modlintrc.json)
  -v, --verbose...       Verbose output (can be used multiple times for increased verbosity)
      --no-color         Disable colored output
  -h, --help             Print help (see more with '--help')
  -V, --version          Print version
"

/-- The version with what the program was built for. -/
def detailedVersion : String :=
  "modlint " ++ version ++ "\nBuild information:\n  Target: x86_64\n  OS: linux\n"

/-- Carries out a command line. -/
def run (fs : FileSystem m) (colourAllowed : Bool) (words : List String) : m Outcome := do
  match Request.read words with
  | .error .usage => return .of (.error .usage)
  | .error .help => return .of (.ok ⟨overview, false⟩)
  | .error .version => return .of (.ok ⟨"modlint " ++ version ++ "\n", false⟩)
  | .ok .overview => return .of (.ok ⟨overview, false⟩)
  | .ok (.version detailed) =>
    return .of (.ok ⟨if detailed then detailedVersion else version ++ "\n", false⟩)
  | .ok (.check request) => return .of (← check fs colourAllowed request)
  | .ok (.formula request) => return .of (← formula fs request)

end ModCheck.Command
