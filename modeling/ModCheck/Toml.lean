import ModCheck.Json

/-
  Documents of tables, keys and values, as they grow line by line. A table may be opened once, and
  a key given once. The finished document is an object.
-/

namespace ModCheck.Toml

/-- How a table came to be: by its own heading, on the way to the heading of a table inside it, or
by keys with dots. -/
inductive Origin where
  | heading
  | implied
  | dotted
deriving DecidableEq, Repr

inductive Node where
  | value (value : Json)
  | table (origin : Origin) (entries : List (String × Node))
  /-- Tables under the same repeated heading. -/
  | tables (items : List (List (String × Node)))

/-- The entries of a table. -/
abbrev Entries := List (String × Node)

/-- Exchanges the node under a key. -/
def replace (entries : Entries) (key : String) (node : Node) : Entries :=
  entries.map fun e => if e.1 == key then (key, node) else e

/-- Works on the last of some tables. -/
def onLast (work : Entries → Option Entries) : List Entries → Option (List Entries)
  | [] => none
  | [last] => (work last).map ([·])
  | first :: rest => (onLast work rest).map (first :: ·)

/-- Goes down the keys of a heading and works on the entries it finds; missing tables are made. -/
def descend (work : Entries → Option Entries) : List String → Entries → Option Entries
  | [], entries => work entries
  | key :: keys, entries =>
    match entries.lookup key with
    | none => (descend work keys []).map fun inner => entries ++ [(key, .table .implied inner)]
    | some (.table origin inner) =>
      (descend work keys inner).map fun inner => replace entries key (.table origin inner)
    | some (.tables items) =>
      (onLast (descend work keys) items).map fun items => replace entries key (.tables items)
    | some (.value _) => none

/-- Opens the table with a key. -/
def openTable (key : String) (entries : Entries) : Option Entries :=
  match entries.lookup key with
  | none => some (entries ++ [(key, .table .heading [])])
  | some (.table .implied inner) => some (replace entries key (.table .heading inner))
  | _ => none

/-- Adds a table to those with a key. -/
def addTable (key : String) (entries : Entries) : Option Entries :=
  match entries.lookup key with
  | none => some (entries ++ [(key, .tables [[]])])
  | some (.tables items) => some (replace entries key (.tables (items ++ [[]])))
  | _ => none

/-- Gives a key with dots a value. -/
def putValue (value : Json) : List String → Entries → Option Entries
  | [], _ => none
  | [key], entries =>
    match entries.lookup key with
    | none => some (entries ++ [(key, .value value)])
    | some _ => none
  | key :: keys, entries =>
    match entries.lookup key with
    | none => (putValue value keys []).map fun inner => entries ++ [(key, .table .dotted inner)]
    | some (.table .heading _) => none
    | some (.table origin inner) =>
      (putValue value keys inner).map fun inner => replace entries key (.table origin inner)
    | _ => none

mutual

/-- The finished value of a node. -/
def Node.toJson : Node → Json
  | .value value => value
  | .table _ entries => .object (entriesToJson entries)
  | .tables items => .array (tablesToJson items)

def entriesToJson : List (String × Node) → List (Option String × Json)
  | [] => []
  | (key, node) :: entries => (some key, node.toJson) :: entriesToJson entries

def tablesToJson : List (List (String × Node)) → List Json
  | [] => []
  | entries :: items => .object (entriesToJson entries) :: tablesToJson items

end

/-- A document and the heading under which keys are read. -/
structure Document where
  heading : List String
  entries : Entries

namespace Document

def empty : Document :=
  ⟨[], []⟩

/-- A new heading. -/
def openAt? (d : Document) (keys : List String) : Option Document :=
  match keys.getLast? with
  | none => none
  | some key => (descend (openTable key) keys.dropLast d.entries).map (⟨keys, ·⟩)

/-- A new heading for one more table under it. -/
def addAt? (d : Document) (keys : List String) : Option Document :=
  match keys.getLast? with
  | none => none
  | some key => (descend (addTable key) keys.dropLast d.entries).map (⟨keys, ·⟩)

/-- A value under the heading. -/
def put? (d : Document) (keys : List String) (value : Json) : Option Document :=
  (descend (putValue value keys) d.heading d.entries).map (⟨d.heading, ·⟩)

def toJson (d : Document) : Json :=
  .object (entriesToJson d.entries)

end Document

end ModCheck.Toml
