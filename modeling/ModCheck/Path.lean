/-
  Paths of files: names with slashes between them. Empty names and dots do not matter when paths
  are compared, except for a dot at the start of a relative path; the text of a path is kept as
  it was given.
-/

namespace ModCheck

/-- A path as written. -/
structure Path where
  text : String
deriving DecidableEq, Repr

/-- The texts between separators. -/
def splitAtChar (separator : Char) : List Char → List (List Char)
  | [] => [[]]
  | c :: cs =>
    if c == separator then [] :: splitAtChar separator cs
    else match splitAtChar separator cs with
      | [] => [[c]]
      | part :: parts => (c :: part) :: parts

namespace Path

/-- The texts between slashes. -/
def segments (p : Path) : List String :=
  (splitAtChar '/' p.text.toList).map String.ofList

def ofSegments (segments : List String) : Path :=
  ⟨"/".intercalate segments⟩

def isAbsolute (p : Path) : Bool :=
  p.text.toList.head? == some '/'

/-- A path below another one. An absolute path stays as it is; nothing below a directory is the
directory with a slash at its end. -/
def join (base p : Path) : Path :=
  if p.isAbsolute then p
  else if base.text.isEmpty || base.text.toList.getLast? == some '/' then ⟨base.text ++ p.text⟩
  else ⟨base.text ++ "/" ++ p.text⟩

/-- A name in a directory. -/
def child (base : Path) (name : String) : Path :=
  base.join ⟨name⟩

/-- A path of names below a directory. -/
def below (base : Path) (names : List String) : Path :=
  names.foldl child base

/-! ## Components -/

/-- A step of a path. -/
inductive Component where
  | root
  | current
  | parent
  | name (text : String)
deriving DecidableEq, Repr

/-- The steps that a path is made of. -/
def components (p : Path) : List Component :=
  let steps (segments : List String) : List Component :=
    (segments.filter fun s => s != "" && s != ".").map fun s =>
      if s == ".." then .parent else .name s
  match p.segments with
  | [] => []
  | first :: rest =>
    if p.isAbsolute then .root :: steps rest
    else if first == "." then .current :: steps rest
    else steps (first :: rest)

def Component.rank : Component → Nat
  | .root => 0
  | .current => 1
  | .parent => 2
  | .name _ => 3

def Component.label : Component → String
  | .name text => text
  | _ => ""

/-- The root before the current directory before its parent before names. -/
def Component.order (a b : Component) : Ordering :=
  (compare a.rank b.rank).then (compare a.label b.label)

/-- The order of paths: component by component, a path before all those below it. -/
def orderComponents : List Component → List Component → Ordering
  | [], [] => .eq
  | [], _ :: _ => .lt
  | _ :: _, [] => .gt
  | a :: as, b :: bs => (a.order b).then (orderComponents as bs)

def order (a b : Path) : Ordering :=
  orderComponents a.components b.components

/-- Puts a path into a list in order, unless one with the same components is there. -/
def insertInOrder (p : Path) : List Path → List Path
  | [] => [p]
  | q :: qs =>
    match p.order q with
    | .lt => p :: q :: qs
    | .eq => q :: qs
    | .gt => q :: insertInOrder p qs

/-! ## Parents and names -/

/-- Drops empty names and dots from the front of segments in reverse order; the last segment
stays. -/
def dropFillers : List String → List String
  | [] => []
  | [first] => [first]
  | s :: rest => if s == "" || s == "." then dropFillers rest else s :: rest

/-- The directory that a path lies in: the empty path for a single name, none for the root and for
the empty path. -/
def parent? (p : Path) : Option Path :=
  match dropFillers p.segments.reverse with
  | [] => none
  | [_] => if p.isAbsolute || p.text.isEmpty then none else some ⟨""⟩
  | _ :: rest =>
    match dropFillers rest with
    | [""] => some ⟨"/"⟩
    | kept => some (ofSegments kept.reverse)

/-- The last step of a path, if it is a name. -/
def fileName? (p : Path) : Option String :=
  match p.components.getLast? with
  | some (.name text) => some text
  | _ => none

/-- What follows the last point of the file name; none for a name whose only point is its first
character. -/
def extension? (p : Path) : Option String :=
  match p.fileName? with
  | none => none
  | some name =>
    let reversed := name.toList.reverse
    let stem := (reversed.dropWhile (· != '.')).drop 1
    if stem.isEmpty then none else some (String.ofList (reversed.takeWhile (· != '.')).reverse)

/-- A path without a dot at its start. -/
def withoutCurrent (p : Path) : Path :=
  match p.components with
  | .current :: _ =>
    ofSegments ((p.segments.drop 1).dropWhile fun s => s == "" || s == ".")
  | _ => p

/-- An absolute path without dots, and the paths of all directories above it. -/
def ancestors (p : Path) : List Path :=
  let names := p.components.filterMap fun c => match c with
    | .name text => some text
    | _ => none
  (List.range (names.length + 1)).reverse.map fun n =>
    ⟨"/" ++ "/".intercalate (names.take n)⟩

end Path

end ModCheck
