import ModCheck.Glob.Expand
import ModCheck.Settings

/-
  The files that a check looks at. A file that is named is taken whatever its extension; of a
  directory the files with the right extension are taken; a path with a star is a pattern. What
  settings exclude is left out, except for files that are named.
-/

namespace ModCheck

variable {m : Type → Type} [Monad m]

/-- Why files cannot be selected. -/
inductive SelectionFault where
  | invalidExclusion (pattern : String)
  | invalidPattern (pattern : String)
  | notFound (path : String)
deriving DecidableEq, Repr

def SelectionFault.message : SelectionFault → String
  | .invalidExclusion pattern => "invalid exclude pattern '" ++ pattern ++ "'"
  | .invalidPattern pattern => "invalid glob pattern '" ++ pattern ++ "'"
  | .notFound path => "path not found: " ++ path

namespace FileSelection

/-- The paths that each pattern excludes. -/
def exclusions (selection : FileSelection) (globs : PatternLanguage) :
    Except SelectionFault (List (String → Bool)) :=
  selection.exclude.mapM fun pattern =>
    match globs pattern with
    | none => .error (.invalidExclusion pattern)
    | some g => .ok g

/-- Whether a path is excluded, as it is written or as seen from the directory it was found in. -/
def isExcluded (exclusions : List (String → Bool)) (path inside : Path) : Bool :=
  exclusions.any fun excludes => excludes path.text || excludes inside.text

/-- The files to check below a directory. -/
def inDirectory (selection : FileSelection) (fs : FileSystem m)
    (exclusions : List (String → Bool)) (directory : Path) : m (List Path) := do
  let entries ← fs.descendants directory
  let files := entries.filter fun e =>
    let path := directory.below e.names
    e.kind == .file && selection.hasExtension path
      && !isExcluded exclusions path (.ofSegments e.names)
  return files.map fun e => directory.below e.names

/-- The files to check for one path. -/
def forPath (selection : FileSelection) (fs : FileSystem m) (exclusions : List (String → Bool))
    (path : Path) : m (Except SelectionFault (List Path)) := do
  match ← fs.kind? path with
  | some .file => return .ok [path]
  | some .directory => return .ok (← selection.inDirectory fs exclusions path)
  | none =>
    if path.text.toList.contains '*' then
      match ← Glob.expandFiles fs path with
      | none => return .error (.invalidPattern path.text)
      | some files =>
        return .ok (files.filter fun file => !isExcluded exclusions file file.withoutCurrent)
    else return .error (.notFound path.text)

/-- The files to check for paths in turn, added to those already found. -/
def forPaths (selection : FileSelection) (fs : FileSystem m) (exclusions : List (String → Bool)) :
    List Path → List Path → m (Except SelectionFault (List Path))
  | found, [] => return .ok found
  | found, path :: paths => do
    match ← selection.forPath fs exclusions path with
    | .error fault => return .error fault
    | .ok files =>
      selection.forPaths fs exclusions (files.foldl (fun ps p => p.insertInOrder ps) found) paths

/-- The files to check, in order and each path once. -/
def find (selection : FileSelection) (globs : PatternLanguage) (fs : FileSystem m)
    (paths : List Path) : m (Except SelectionFault (List Path)) :=
  match selection.exclusions globs with
  | .error fault => return .error fault
  | .ok exclusions => selection.forPaths fs exclusions [] paths

end FileSelection

end ModCheck
