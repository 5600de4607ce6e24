/-
Log lines: what the program says of an event while it runs.

Main definition:
* `Event.logLine` — the level, the wording and the fields of an event on one line.
-/
import AsmCatalog.Event
import AsmCatalog.Text.Number

namespace AsmCatalog.Event

/-- The fields of an event, each with its name. -/
def logFields : Event → List (Text × Text)
  | chunk line position length kind =>
    [("line".toList, Text.ofInt line), ("position".toList, Text.ofNat position),
      ("length".toList, Text.ofNat length), ("kind".toList, kind.word.toList)]
  | malformedHeader line header => [("line".toList, Text.ofInt line), ("header".toList, header)]
  | unterminated name line => [("macro_name".toList, name), ("line".toList, Text.ofInt line)]
  | imported path chunks constants =>
    [("path".toList, path.text), ("chunks".toList, Text.ofNat chunks),
      ("constants".toList, Text.ofNat constants)]
  | finished includes inputs =>
    [("includes".toList, Text.ofNat includes), ("inputs".toList, Text.ofNat inputs)]

/-- The level, the wording and the fields of an event on one line. -/
def logLine (e : Event) : Text :=
  [' '].intercalate (e.level.name.toList :: e.message.toList ::
    e.logFields.map fun (name, value) => name ++ ['='] ++ value)

end AsmCatalog.Event
