import ModCheck.Decimal.Binary64
import ModCheck.Json.Parser

/-
  Reading JSON values as values of other types. A record is written as an object, in which unknown
  keys do not matter, or as an array of its fields in order.
-/

namespace ModCheck.Json

variable {α β : Type}

/-- Reads a value as an `α`, given how many arrays and objects may be opened inside each other. -/
abbrev Reader (α : Type) := Nat → Json → Option α

/-- How many arrays and objects may be open at once in a text. -/
def maxDepth : Nat := 127

/-- Reads a text. -/
def Reader.ofText? (read : Reader α) (text : String) : Option α :=
  (parse? text).bind (read maxDepth)

/-! ## Simple values -/

def text : Reader String
  | _, .string t => t
  | _, _ => none

def flag : Reader Bool
  | _, .bool b => some b
  | _, _ => none

/-- A whole number that is not negative and fits into 64 bits; `-0` is none. -/
def natural : Reader Nat
  | _, .number n =>
    if n.isWhole && !n.negative && n.size.coefficient < Nat.pow 2 64 then some n.size.coefficient
    else none
  | _, _ => none

/-- A value or `null`. -/
def nullable (read : Reader α) : Reader (Option α)
  | _, .null => some none
  | room, value => (read room value).map some

/-! ## Lists and maps -/

def list (item : Reader α) : Reader (List α)
  | room + 1, .array items => items.mapM (item room)
  | _, _ => none

/-- Gives a key a value: at its place if the key is there, at the end otherwise. -/
def putEntry (entries : List (String × α)) (key : String) (value : α) : List (String × α) :=
  if entries.any (·.1 == key) then
    entries.map fun e => if e.1 == key then (key, value) else e
  else entries ++ [(key, value)]

/-- A key with its value. -/
def entry (item : Reader α) (room : Nat) (field : Option String × Json) : Option (String × α) := do
  some (← field.1, ← item room field.2)

/-- An object with any keys; of a repeated key the last value counts. -/
def map (item : Reader α) : Reader (List (String × α))
  | room + 1, .object fields => do
    let entries ← fields.mapM (entry item room)
    some (entries.foldl (fun kept e => putEntry kept e.1 e.2) [])
  | _, _ => none

/-! ## Records -/

/-- What is written for a field: a value, nothing under its keys, or nothing because the array of
fields has ended. -/
inductive Slot where
  | given (value : Json)
  | absent
  | beyond

/-- The value under one of some keys; not more than one of the fields may have them. -/
def slotOf? (fields : List (Option String × Json)) (keys : List String) : Option Slot :=
  match fields.filter fun f => f.1.any keys.contains with
  | [] => some .absent
  | [(_, value)] => some (.given value)
  | _ => none

/-- The slots of a record, given the keys of each field. -/
def slots? (keys : List (List String)) : Json → Option (List Slot)
  | .object fields =>
    if fields.all (·.1.isSome) then keys.mapM (slotOf? fields) else none
  | .array items =>
    if items.length ≤ keys.length then
      some (items.map .given ++ List.replicate (keys.length - items.length) .beyond)
    else none
  | _ => none

/-- A record, given the keys of each field and how to read the fields. -/
def record (keys : List (List String)) (build : Nat → List Slot → Option α) : Reader α
  | room + 1, value => (slots? keys value).bind (build room)
  | _, _ => none

namespace Slot

/-- A field that has to be there. -/
def required (read : Reader α) (room : Nat) : Slot → Option α
  | .given value => read room value
  | _ => none

/-- A field that has a value when it is left out. -/
def orElse (fallback : α) (read : Reader α) (room : Nat) : Slot → Option α
  | .given value => read room value
  | _ => some fallback

/-- A field that may be `null`, or left out of an object. -/
def optional (read : Reader α) (room : Nat) : Slot → Option (Option α)
  | .given value => nullable read room value
  | .absent => some none
  | .beyond => none

end Slot

/-! ## Values kept whole -/

mutual

/-- Whether a value can be kept whole: all its texts can be written, all its numbers are in the
range of 64-bit floating point numbers, and not too much is nested. -/
def isSound : Nat → Json → Bool
  | _, .null => true
  | _, .bool _ => true
  | _, .number n => !(Binary64.ofDecimal n.size).isInfinite
  | _, .string t => t.isSome
  | 0, .array _ => false
  | room + 1, .array items => areSound room items
  | 0, .object _ => false
  | room + 1, .object fields => haveSoundValues room fields

def areSound : Nat → List Json → Bool
  | _, [] => true
  | room, item :: items => isSound room item && areSound room items

def haveSoundValues : Nat → List (Option String × Json) → Bool
  | _, [] => true
  | room, (key, value) :: fields =>
    key.isSome && isSound room value && haveSoundValues room fields

end

end ModCheck.Json
