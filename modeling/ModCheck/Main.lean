import ModCheck.Command

/-
  The program: the files of the machine, its arguments and its output.
-/

namespace ModCheck.Disk

/-- What the system says about a file that cannot be used. -/
def causeOf : IO.Error → IoCause
  | .noFileOrDirectory _ _ _ => .notFound
  | .inappropriateType _ 20 _ => .notADirectory
  | .inappropriateType _ 21 _ => .isADirectory
  | e => .other (toString e)

def attempt {α : Type} (action : IO α) : IO (Except IoCause α) := do
  try
    return .ok (← action)
  catch e =>
    return .error (causeOf e)

def kindOf? : IO.FS.FileType → Option FileKind
  | .file => some .file
  | .dir => some .directory
  | _ => none

def kind? (p : Path) : IO (Option FileKind) := do
  if p.text.isEmpty then return none
  match ← attempt ((← IO.currentDir) / p.text).metadata with
  | .error _ => return none
  | .ok data => return kindOf? data.type

def read (p : Path) : IO (Except IoCause String) := do
  match ← attempt (IO.FS.readBinFile p.text) with
  | .error cause => return .error cause
  | .ok bytes =>
    match String.fromUTF8? bytes with
    | none => return .error .invalidUtf8
    | some text => return .ok text

def write (p : Path) (text : String) : IO (Except IoCause Unit) :=
  attempt (IO.FS.writeFile p.text text)

/-- What is directly in a directory; links are not followed. -/
def children (p : Path) : IO (List FileEntry) := do
  match ← attempt ((← IO.currentDir) / p.text).readDir with
  | .error _ => return []
  | .ok entries =>
    entries.toList.filterMapM fun entry => do
      match ← attempt entry.path.symlinkMetadata with
      | .error _ => return none
      | .ok data => return (kindOf? data.type).map (⟨[entry.fileName], ·⟩)

/-- What is in a directory and in those inside it. -/
partial def descendants (p : Path) : IO (List FileEntry) := do
  (← children p).flatMapM fun entry => do
    match entry.kind with
    | .file => return [entry]
    | .directory =>
      let inner ← descendants (p.below entry.names)
      return entry :: inner.map fun e => ⟨entry.names ++ e.names, e.kind⟩

def canonical (p : Path) : IO (Except IoCause Path) := do
  match ← kind? p with
  | none => return .error .notFound
  | some _ => attempt (return ⟨toString (← IO.FS.realPath p.text)⟩)

/-- The file system of the machine. -/
def fileSystem : FileSystem IO :=
  { kind?, read, write, children, descendants, canonical }

end ModCheck.Disk

def main (arguments : List String) : IO UInt32 := do
  let colourAllowed := (← IO.getEnv "NO_COLOR").isNone
  let outcome ← ModCheck.Command.run ModCheck.Disk.fileSystem colourAllowed arguments
  IO.print outcome.text
  if let some failure := outcome.failure then
    IO.eprintln failure.text
  return outcome.exit.toUInt32
