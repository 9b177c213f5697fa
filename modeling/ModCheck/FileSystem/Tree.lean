import ModCheck.FileSystem

/-
  A file system in memory: a tree of directories and files, and a current directory. There are no
  links, so that names from the root lead to each file in one way only.
-/

namespace ModCheck

/-- A file holds a text, or bytes that are no text. -/
inductive FileTree where
  | file (text : Option String)
  | directory (entries : List (String × FileTree))
deriving Repr

namespace FileTree

def kind : FileTree → FileKind
  | .file _ => .file
  | .directory _ => .directory

/-- What the names lead to. -/
def get? : FileTree → List String → Option FileTree
  | tree, [] => some tree
  | .file _, _ :: _ => none
  | .directory entries, name :: names =>
    match entries.lookup name with
    | none => none
    | some tree => tree.get? names

/-- Gives a name of a directory a value, at its place or at the end. -/
def setEntry (entries : List (String × FileTree)) (name : String) (tree : FileTree) :
    List (String × FileTree) :=
  if entries.any (·.1 == name) then
    entries.map fun e => if e.1 == name then (name, tree) else e
  else entries ++ [(name, tree)]

/-- Puts a tree where the names lead to; directories on the way are made. -/
def set : FileTree → List String → FileTree → FileTree
  | _, [], new => new
  | .file _, _ :: _, _ => .directory []
  | .directory entries, name :: names, new =>
    .directory (setEntry entries name (((entries.lookup name).getD (.directory [])).set names new))

mutual

/-- Everything inside, with the names that lead to it, a directory before its contents. -/
def inside : FileTree → List FileEntry
  | .file _ => []
  | .directory entries => insideEntries entries

def insideEntries : List (String × FileTree) → List FileEntry
  | [] => []
  | (name, tree) :: rest =>
    ⟨[name], tree.kind⟩ :: (inside tree).map (fun e => ⟨name :: e.names, e.kind⟩)
      ++ insideEntries rest

end

/-- One step of a path from the directory that `here` leads to. -/
def walkStep (root : FileTree) (here : List String) (segment : String) :
    Except IoCause (List String) :=
  match root.get? here with
  | none => .error .notFound
  | some (.file _) => .error .notADirectory
  | some (.directory entries) =>
    if segment == "" || segment == "." then .ok here
    else if segment == ".." then .ok here.dropLast
    else if (entries.lookup segment).isSome then .ok (here ++ [segment])
    else .error .notFound

/-- The names that a path leads to. -/
def locate (root : FileTree) (current : List String) (p : Path) : Except IoCause (List String) :=
  if p.text.isEmpty then .error .notFound
  else p.segments.foldlM (walkStep root) (if p.isAbsolute then [] else current)

/-- The tree at a path. -/
def at? (root : FileTree) (current : List String) (p : Path) : Except IoCause FileTree :=
  match root.locate current p with
  | .error cause => .error cause
  | .ok names =>
    match root.get? names with
    | none => .error .notFound
    | some tree => .ok tree

/-- The text of the file at a path. -/
def read (root : FileTree) (current : List String) (p : Path) : Except IoCause String :=
  match root.at? current p with
  | .error cause => .error cause
  | .ok (.directory _) => .error .isADirectory
  | .ok (.file none) => .error .invalidUtf8
  | .ok (.file (some text)) => .ok text

/-- Everything below the directory at a path. -/
def entriesAt (root : FileTree) (current : List String) (p : Path) : List FileEntry :=
  match root.at? current p with
  | .error _ => []
  | .ok tree => tree.inside

/-- Gives the file at a path a new text. -/
def write (root : FileTree) (current : List String) (p : Path) (text : String) :
    Except IoCause FileTree :=
  match root.locate current p with
  | .error cause => .error cause
  | .ok names =>
    match root.get? names with
    | some (.file _) => .ok (root.set names (.file (some text)))
    | some (.directory _) => .error .isADirectory
    | none => .error .notFound

/-- The file system of a tree. -/
def fileSystem (current : List String) : FileSystem (StateM FileTree) where
  kind? p := return ((← get).at? current p).toOption.map kind
  read p := return (← get).read current p
  write p text := do
    match (← get).write current p text with
    | .error cause => return .error cause
    | .ok root =>
      modify fun _ => root
      return .ok ()
  children p := return ((← get).entriesAt current p).filter (·.names.length == 1)
  descendants p := return (← get).entriesAt current p
  canonical p := return ((← get).locate current p).map fun names =>
    ⟨"/" ++ "/".intercalate names⟩

end FileTree

end ModCheck
