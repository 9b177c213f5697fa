import ModCheck.Correction.Apply
import ModCheck.Validation

/-
  Open files that are edited, checked and fixed in memory.
-/

namespace ModCheck

/-- The files that are open, in the order in which they were opened. -/
structure Workspace where
  files : List SourceFile
deriving DecidableEq, Repr

/-- What fixing a file gave. -/
structure FileFix where
  file : String
  result : Except CorrectionFault Corrected

namespace Workspace

/-- The source of a file; of two with the same name the first counts. -/
def source? (w : Workspace) (file : String) : Option String :=
  (w.files.find? (·.file == file)).map (·.source)

/-- Gives the first file with a name a new source. -/
def replaceSource (file source : String) : List SourceFile → List SourceFile
  | [] => []
  | f :: fs => if f.file == file then ⟨file, source⟩ :: fs else f :: replaceSource file source fs

/-- Opens a file, or gives an open one a new source. -/
def set (w : Workspace) (file source : String) : Workspace :=
  if w.files.any (·.file == file) then ⟨replaceSource file source w.files⟩
  else ⟨w.files ++ [⟨file, source⟩]⟩

/-- Closes all files with a name. -/
def remove (w : Workspace) (file : String) : Workspace :=
  ⟨w.files.filter (·.file != file)⟩

/-- Applies corrections to a file, if it is open; a fault leaves it as it is. -/
def apply (w : Workspace) (file : String) (corrections : List Correction) :
    Workspace × Option (Except CorrectionFault Corrected) :=
  match w.source? file with
  | none => (w, none)
  | some source =>
    match Correction.applyAll source corrections with
    | .error fault => (w, some (.error fault))
    | .ok outcome => (⟨replaceSource file outcome.output w.files⟩, some (.ok outcome))

/-- Applies those corrections to a file that are meant for it. -/
def fixOf (corrections : List Correction) (f : SourceFile) : FileFix :=
  ⟨f.file, Correction.applyAll f.source (corrections.filter (·.file == f.file))⟩

/-- The file after a fix. -/
def FileFix.after (fix : FileFix) (f : SourceFile) : SourceFile :=
  match fix.result with
  | .error _ => f
  | .ok outcome => ⟨f.file, outcome.output⟩

/-- Checks all files once and applies the corrections to each. -/
def fix (w : Workspace) (schema : Schema) (options : Options) : Workspace × List FileFix :=
  let corrections := (validate schema options w.files).corrections
  (⟨w.files.map fun f => FileFix.after (fixOf corrections f) f⟩,
    w.files.map (fixOf corrections))

end Workspace

end ModCheck
