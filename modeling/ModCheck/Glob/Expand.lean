import ModCheck.FileSystem
import ModCheck.Glob

/-
  The paths that a pattern leads to. Between two slashes a pattern stands for names in one
  directory; two stars stand for everything below a directory.
-/

namespace ModCheck.Glob

variable {m : Type → Type} [Monad m]

/-- The path of something inside a directory; the current directory is not written. -/
def pathInside (directory : Path) (names : List String) : Path :=
  if directory.components == [.current] then Path.ofSegments names else directory.below names

/-- Whether a pattern starts with a dot, so that it may stand for the directory itself or the one
above. -/
def startsWithDot (g : Glob) : Bool :=
  g.parts.head? == some (.char '.')

/-- The paths that patterns for one name each lead to from a path. -/
def follow (fs : FileSystem m) : List Glob → Path → m (List Path)
  | [], path => pure [path]
  | g :: rest, path =>
    match g.literal? with
    | some name => do
      let next := pathInside path [name]
      let found ← if name == "." || name == ".." then fs.isDirectory path
        else Option.isSome <$> fs.kind? next
      if found then follow fs rest next else pure []
    | none => do
      if !(← fs.isDirectory path) then pure []
      else if g.isDeep then
        match rest with
        | [] =>
          return ((← fs.descendants path).filter (·.kind == .directory)).map
            fun e => pathInside path e.names
        | h :: rest =>
          if h.isDeep then follow fs (h :: rest) path
          else
            let entries ← fs.descendants path
            (entries.filter fun e => e.names.getLast?.any h.isIn).flatMapM
              fun e => follow fs rest (pathInside path e.names)
      else
        let entries ← fs.children path
        let inside ← (entries.filter fun e => e.names.getLast?.any g.isIn).flatMapM
          fun e => follow fs rest (pathInside path e.names)
        let special := if startsWithDot g then [".", ".."].filter g.isIn else []
        let around ← special.flatMapM fun name => follow fs rest (path.child name)
        return inside ++ around

/-- The patterns between the slashes of a pattern for paths; none if one of them, or all together,
cannot be read. -/
def between? (pattern : Path) : Option (List Glob) :=
  match parse? pattern.text with
  | none => none
  | some _ =>
    ((if pattern.isAbsolute then pattern.segments.drop 1 else pattern.segments)).mapM parse?

/-- The files that a pattern for paths leads to; none if it cannot be read. A pattern that ends in
a slash stands for directories, and so for no files. -/
def expandFiles (fs : FileSystem m) (pattern : Path) : m (Option (List Path)) := do
  match between? pattern with
  | none => return none
  | some globs =>
    if pattern.text.toList.getLast? == some '/' then return some []
    else
      let paths ← follow fs globs ⟨if pattern.isAbsolute then "/" else "."⟩
      return some (← paths.filterM fs.isFile)

end ModCheck.Glob
