import FactoryMethods.Method.Failure

/-! The log of an expansion: one entry for every descriptor begun, then one for how it ended. -/
namespace FactoryMethods

inductive LogLevel
  | debug | info | warn
  deriving DecidableEq, Repr

def LogLevel.name : LogLevel → String
  | .debug => "DEBUG"
  | .info => "INFO"
  | .warn => "WARN"

inductive LogEntry
  | expanding (index : Nat) (node : Descriptor)
  | expanded (descriptors lines : Nat)
  | aborted (f : Failure)
  deriving DecidableEq, Repr

namespace LogEntry

def level : LogEntry → LogLevel
  | .expanding _ _ => .debug
  | .expanded _ _ => .info
  | .aborted _ => .warn

def message : LogEntry → String
  | .expanding index node =>
    s!"Expanding descriptor #{index} '{node.name}' ({node.fields.length} fields)"
  | .expanded descriptors lines => s!"Expanded {descriptors} descriptors into {lines} lines"
  | .aborted f => s!"Expansion aborted: {f.message}"

end LogEntry

/-- Shows a log: the levels that are let through, and the line for the entry at a position, which
may tell more than the entry, such as the time. -/
structure LogWriter where
  admits : LogLevel → Bool
  line : Nat → LogEntry → String

namespace LogWriter

def quiet : LogWriter := ⟨fun _ => false, fun _ _ => ""⟩

/-- The lines for a log of which the first entry has position `n`. -/
def shownFrom (writer : LogWriter) (n : Nat) : List LogEntry → String
  | [] => ""
  | e :: rest =>
    let line := if writer.admits e.level then writer.line n e else ""
    line ++ writer.shownFrom (n + 1) rest

def shown (writer : LogWriter) (log : List LogEntry) : String := writer.shownFrom 0 log

end LogWriter

/-- A result together with what was logged on the way to it. -/
structure Outcome (α : Type) where
  log : List LogEntry
  result : Except Failure α
  deriving Repr

namespace Outcome

def silent {α : Type} (f : Failure) : Outcome α := ⟨[], .error f⟩

def map {α β : Type} (g : α → β) (o : Outcome α) : Outcome β := ⟨o.log, o.result.map g⟩

@[simp] theorem map_log {α β : Type} (g : α → β) (o : Outcome α) : (o.map g).log = o.log := rfl

@[simp] theorem map_result {α β : Type} (g : α → β) (o : Outcome α) :
    (o.map g).result = o.result.map g := rfl

end Outcome

end FactoryMethods
