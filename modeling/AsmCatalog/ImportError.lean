/-
Why an import stops.

Malformed headers and missing ends are no errors: they are recorded in the chunks.

Main definitions:
* `ImportError` — the causes;
* `ImportError.message` — their wording.
-/
import AsmCatalog.SourcePath

namespace AsmCatalog

/-- Why an import stops: the source cannot be opened or read, its time is over, or it has
been asked to stop.  The line is that of the last chunk that was begun. -/
inductive ImportError where
  | unopened (path : SourcePath) (reason : Text)
  | unread (reason : Text)
  | expired (path : SourcePath) (line : Int)
  | cancelled (path : SourcePath) (line : Int)
deriving DecidableEq

namespace ImportError

/-- The wording of an error. -/
def message : ImportError → String
  | unopened path reason => s!"cannot open {String.ofList path.text}: {String.ofList reason}"
  | unread reason => s!"read error: {String.ofList reason}"
  | expired path line =>
    s!"import of {String.ofList path.text} exceeded its deadline at line {line}"
  | cancelled path line =>
    s!"import of {String.ofList path.text} was cancelled at line {line}"

/-- The line at which an import was interrupted. -/
def line? : ImportError → Option Int
  | expired _ line => some line
  | cancelled _ line => some line
  | _ => none

end ImportError

end AsmCatalog
