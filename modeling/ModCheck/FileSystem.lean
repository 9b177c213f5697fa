import ModCheck.Fault
import ModCheck.Path

/-
  What is asked of a file system. Relative paths start at the current directory.
-/

namespace ModCheck

inductive FileKind where
  | file
  | directory
deriving DecidableEq, Repr

/-- Something inside a directory: the names that lead to it, and what it is. -/
structure FileEntry where
  names : List String
  kind : FileKind
deriving DecidableEq, Repr

/-- The operations on files, in the monad `m` in which they take effect. -/
structure FileSystem (m : Type → Type) where
  /-- What there is at a path, if anything. -/
  kind? : Path → m (Option FileKind)
  /-- The text of a file. -/
  read : Path → m (Except IoCause String)
  /-- Gives a file a new text. -/
  write : Path → String → m (Except IoCause Unit)
  /-- Everything directly in a directory. -/
  children : Path → m (List FileEntry)
  /-- Everything in a directory and in those inside it. -/
  descendants : Path → m (List FileEntry)
  /-- The absolute path without dots. -/
  canonical : Path → m (Except IoCause Path)

namespace FileSystem

variable {m : Type → Type} [Monad m]

def isFile (fs : FileSystem m) (p : Path) : m Bool :=
  return (← fs.kind? p) == some .file

def isDirectory (fs : FileSystem m) (p : Path) : m Bool :=
  return (← fs.kind? p) == some .directory

end FileSystem

end ModCheck
