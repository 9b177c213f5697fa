import ModCheck.Message

/-
  Messages sorted by severity.
-/

namespace ModCheck

/-- Messages by severity, in each group in the order found. -/
structure Findings where
  errors : List Message
  warnings : List Message
  hints : List Message
  info : List Message
deriving DecidableEq, Repr

namespace Findings

/-- Groups messages. -/
def ofMessages (messages : List Message) : Findings :=
  { errors := messages.filter (·.severity == .error)
    warnings := messages.filter (·.severity == .warning)
    hints := messages.filter (·.severity == .hint)
    info := messages.filter (·.severity == .info) }

/-- All messages, the gravest first. -/
def all (f : Findings) : List Message :=
  f.errors ++ f.warnings ++ f.hints ++ f.info

def hasErrors (f : Findings) : Bool :=
  !f.errors.isEmpty

def isEmpty (f : Findings) : Bool :=
  f.all.isEmpty

def total (f : Findings) : Nat :=
  f.all.length

/-- The messages that are at least as grave as `least`. -/
def atLeast (f : Findings) (least : Severity) : List Message :=
  f.all.filter fun m => least.rank ≤ m.severity.rank

/-- The corrections of all messages. -/
def corrections (f : Findings) : List Correction :=
  f.all.flatMap (·.corrections)

end Findings

end ModCheck
