/-
  Items that can be looked up under several names each. A name that is taken keeps its first
  owner; an item without a name left stays listed among the items. One list of entries serves both
  as the index from names to items and as the list of names in the order entered.
-/

namespace ModCheck

/-- A name as written, the form under which it is looked up, and the item it leads to. -/
structure NameEntry (α : Type) where
  key : String
  name : String
  item : α

/-- Items in the order given, and the names that lead to them. -/
structure NameTable (α : Type) where
  items : List α
  entries : List (NameEntry α)

namespace NameTable

variable {α : Type}

/-- A table without items. -/
def empty : NameTable α :=
  ⟨[], []⟩

/-- Enters a name for an item unless its key is taken. -/
def enter (key : String → String) (item : α) (entries : List (NameEntry α)) (name : String) :
    List (NameEntry α) :=
  if entries.any (·.key == key name) then entries else entries ++ [⟨key name, name, item⟩]

/-- The table of `items`, each under the names that `names` gives it; two names with the same `key`
are the same. -/
def build (key : String → String) (names : α → List String) (items : List α) : NameTable α :=
  ⟨items, items.foldl (fun entries item => (names item).foldl (enter key item) entries) []⟩

/-- The item with a key. -/
def find? (table : NameTable α) (key : String) : Option α :=
  (table.entries.find? (·.key == key)).map (·.item)

/-- All names, as written. -/
def names (table : NameTable α) : List String :=
  table.entries.map (·.name)

def isEmpty (table : NameTable α) : Bool :=
  table.items.isEmpty

end NameTable

end ModCheck
