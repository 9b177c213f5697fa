import ModCheck.FileSystem
import ModCheck.Settings
import ModCheck.Toml.Parser

/-
  Finding and reading the settings. They are looked for in a directory and in all those above it;
  the nearest file counts, and the format goes by its extension.
-/

namespace ModCheck.Settings

variable {m : Type → Type} [Monad m]

/-- The names of settings files, the first one found in a directory counts. -/
def fileNames : List String :=
  [".modlintrc.toml", ".modlintrc.json", "modlint.toml", "modlint.json"]

/-- All places where settings may be, for a start at an absolute path. -/
def candidates (start : Path) : List Path :=
  start.ancestors.flatMap fun directory => fileNames.map directory.child

/-- The settings file that counts for a path. -/
def discover (fs : FileSystem m) (start : Path) : m (Except SettingsFault (Option Path)) := do
  match ← fs.canonical start with
  | .error cause => return .error (.invalidPath start.text cause)
  | .ok place => return .ok (← (candidates place).findM? fs.isFile)

/-- The value written in a settings file. -/
def valueOf (p : Path) (text : String) : Except SettingsFault (Option Json) :=
  match p.extension?.getD "" with
  | "toml" => .ok (Toml.parse? text)
  | "json" => .ok (Json.parse? text)
  | extension => .error (.unsupportedFormat extension p.text)

/-- Reads settings from the text of a file. -/
def ofText (p : Path) (text : String) : Except SettingsFault Settings :=
  match valueOf p text with
  | .error fault => .error fault
  | .ok value =>
    match value.bind (read Json.maxDepth) with
    | none => .error (.malformed p.text)
    | some settings => .ok settings

/-- Settings, the file they come from, and the directory that paths in them start from. -/
structure Loaded where
  settings : Settings
  file : Option Path
  base : Path
deriving DecidableEq, Repr

/-- Reads a settings file. -/
def loadFile (fs : FileSystem m) (start file : Path) : m (Except Fault Loaded) := do
  match ← fs.read file with
  | .error cause => return .error (.io file.text cause)
  | .ok text =>
    match ofText file text with
    | .error fault => return .error (.settings fault)
    | .ok settings => return .ok ⟨settings, some file, file.parent?.getD start⟩

/-- Reads the settings file given, or the one that counts for `start`; without one the defaults
hold. -/
def load (fs : FileSystem m) (file : Option Path) (start : Path) : m (Except Fault Loaded) := do
  match file with
  | some file =>
    if ← fs.isFile file then loadFile fs start file
    else return .error (.settings (.notFound file.text))
  | none =>
    match ← discover fs start with
    | .error fault => return .error (.settings fault)
    | .ok none => return .ok ⟨default, none, start⟩
    | .ok (some file) => loadFile fs start file

end ModCheck.Settings
