/-
Events that an import reports while it runs.

Main definitions:
* `Level` — how important an event is;
* `Event` — the events, with `Event.level` and `Event.message`.
-/
import AsmCatalog.ChunkKind
import AsmCatalog.SourcePath

namespace AsmCatalog

/-- Levels of events, the most detailed first. -/
inductive Level where
  | trace
  | debug
  | info
  | warn
  | error
deriving DecidableEq, Inhabited

namespace Level

/-- How severe a level is. -/
def severity : Level → Nat
  | trace => 1
  | debug => 2
  | info => 3
  | warn => 4
  | error => 5

/-- The name of a level. -/
def name : Level → String
  | trace => "TRACE"
  | debug => "DEBUG"
  | info => "INFO"
  | warn => "WARN"
  | error => "ERROR"

/-- Whether events of the level `event` are shown when `shown` is asked for. -/
def admits (shown event : Level) : Bool := shown.severity ≤ event.severity

end Level

/-- What an import reports: a chunk that has been produced, a header that is malformed,
a macro whose body runs to the end, a file that has been catalogued, and a finished run. -/
inductive Event where
  | chunk (line : Int) (position length : Nat) (kind : ChunkKind)
  | malformedHeader (line : Int) (header : Text)
  | unterminated (name : Text) (line : Int)
  | imported (path : SourcePath) (chunks constants : Nat)
  | finished (includes inputs : Nat)
deriving DecidableEq

namespace Event

/-- The level of an event. -/
def level : Event → Level
  | chunk .. => .trace
  | malformedHeader .. => .warn
  | unterminated .. => .warn
  | imported .. => .debug
  | finished .. => .info

/-- The wording of an event. -/
def message : Event → String
  | chunk .. => "chunk"
  | malformedHeader .. => "malformed macro header"
  | unterminated .. => "macro body runs to end of input"
  | imported .. => "imported"
  | finished .. => "import finished"

end Event

end AsmCatalog
