/-
The import of a source: one scan from top to bottom that catalogs every line.

Each step reads a line, tells the kind of chunk that it begins, moves back and reads
the line again for the chunk.  A macro definition then takes the lines of its body,
each by the same step, through the first that has the end keyword.  Before each line
the import looks whether it has to stop.

Main definitions:
* `Import.Settings` — the mode, the includes, and whether time is over;
* `Import.Step` — an action of the scan, which keeps the state even when it fails;
* `Import.chunk`, `Import.body`, `Import.scan` — a chunk, the body of a macro, a source;
* `Catalog.ofSource` — the catalog of a source, with the events of its import.
-/
import AsmCatalog.Catalog
import AsmCatalog.Cursor
import AsmCatalog.Event
import AsmCatalog.ImportError
import AsmCatalog.Statement.Parse

namespace AsmCatalog

namespace Import

/-- How a source is imported: the mode, the files whose macros can be called, and
whether the time for the import is over already. -/
structure Settings where
  mode : Mode := .legacy
  includes : List Catalog := []
  timeOver : Bool := false

/-- The state of a scan: the cursor, the number of the last line that began a chunk, the
catalog so far, and the events so far. -/
structure State where
  cursor : Cursor
  line : Int := -1
  catalog : Catalog
  events : Array Event := #[]

/-- An action of the scan.  A failed action still leaves its state. -/
abbrev Step := EStateM ImportError State

/-- An action on the cursor. -/
def reading {α : Type} (r : Reading α) : Step α := fun s =>
  match r s.cursor with
  | .ok (a, cursor) => .ok a { s with cursor }
  | .error reason => .error (.unread reason) s

/-- An event is reported. -/
def emit (e : Event) : Step Unit := modify fun s => { s with events := s.events.push e }

/-- The offset of the next line. -/
def position : Step Nat := return (← get).cursor.position

/-- The import fails if it has been asked to stop or if its time is over. -/
def checkInterrupt (settings : Settings) : Step Unit := do
  let s ← get
  if s.cursor.stopped then throw (.cancelled s.catalog.path s.line)
  else if settings.timeOver then throw (.expired s.catalog.path s.line)

/-- The number of the line that begins the next chunk. -/
def nextLine : Step Int := do
  modify fun s => { s with line := s.line + 1 }
  return (← get).line

/-- The line at an offset, where the cursor is moved to first. -/
def lineAt (start : Nat) : Step (Option Text) := do
  reading (Cursor.seek start)
  reading Cursor.readLine

/-- A chunk of the file that is being imported, from `start` on. -/
def place (start : Nat) (line : Int) (length : Nat) (content : Content Chunk) : Step Chunk :=
  return ⟨(← get).catalog.path, start, line, length, content⟩

/-- The comment at an offset.  Its length leaves out the terminator. -/
def comment (start : Nat) (line : Int) : Step (Option Chunk) := do
  match ← lineAt start with
  | none => return none
  | some text =>
    let length := (← get).cursor.lastLength
    return some (← place start line length (.comment (commentText text)))

/-- The statement at an offset.  An equate declares a constant. -/
def statement (settings : Settings) (start : Nat) (line : Int) : Step (Option Chunk) := do
  match ← lineAt start with
  | none => return none
  | some text =>
    let length := (← position) - start
    let candidates := visibleMacros (visibleCatalogs settings.includes (← get).catalog)
    let c ← place start line length (.statement (.parse settings.mode candidates text))
    if let some constant := Constant.ofChunk? c then
      modify fun s => { s with catalog := s.catalog.declare constant }
    return some c

/-- The macro definition at an offset, whose body is taken by `body`, which also tells
whether the end keyword was met.  A malformed header makes an invalid macro without a
body. -/
def macroDef (settings : Settings) (body : Step (List (Option Chunk) × Bool)) (start : Nat)
    (line : Int) : Step (Option Chunk) := do
  match ← lineAt start with
  | none => return none
  | some text =>
    let normal := Text.normalize text
    match MacroHeader.parse? settings.mode normal with
    | none =>
      let length := (← position) - start
      emit (.malformedHeader line normal)
      return some (← place start line length
        (.macroDef ⟨MacroHeader.nameOf normal, [], [], false⟩))
    | some header =>
      let (entries, ended) ← body
      let length := (← position) - start
      if !ended then emit (.unterminated header.name line)
      return some (← place start line length
        (.macroDef ⟨header.name, header.parameters, entries, true⟩))

/-- The chunk at the cursor, and nothing for a blank line or at the end. -/
def chunk (settings : Settings) (body : Step (List (Option Chunk) × Bool)) :
    Step (Option Chunk) := do
  let start ← position
  match ChunkKind.classify (← reading Cursor.readLine) with
  | .error .absent => return none
  | .ok kind =>
    let line ← nextLine
    let found ←
      match kind with
      | .comment => comment start line
      | .macroDef => macroDef settings body start line
      | .statement => statement settings start line
    match found.filter (!·.isBlank) with
    | none => return none
    | some c =>
      emit (.chunk line start c.length c.kind)
      return some c

/-- The body of a macro behind the entries that were taken before, the last of them
first, and whether the end keyword was met.  Every line spends one unit of `fuel`. -/
def body (settings : Settings) : Nat → List (Option Chunk) → Step (List (Option Chunk) × Bool)
  | 0, taken => return (taken.reverse, false)
  | fuel + 1, taken => do
    if ← reading Cursor.atEnd then return (taken.reverse, false)
    else
      checkInterrupt settings
      match ← reading Cursor.peekLine with
      | none => return (taken.reverse, false)
      | some line =>
        let entry ← chunk settings (body settings fuel [])
        if endsMacro line then return ((entry :: taken).reverse, true)
        else body settings fuel (entry :: taken)

/-- The top-level chunks are added to the catalog.  Every chunk spends one unit of
`fuel`. -/
def scan (settings : Settings) : Nat → Step Unit
  | 0 => return ()
  | fuel + 1 => do
    if ← reading Cursor.atEnd then return ()
    else
      checkInterrupt settings
      if let some c ← chunk settings (body settings fuel []) then
        modify fun s => { s with catalog := s.catalog.add c }
      scan settings fuel

/-- A whole import.  Each line takes at least one byte, so the most bytes that the source
can hold bound the number of lines. -/
def run (settings : Settings) : Step Unit := do
  scan settings ((← get).cursor.source.capacity + 1)
  let file := (← get).catalog
  emit (.imported file.path file.chunks.size file.constants.length)

/-- What comes of an import: the catalog or the error, the events, and whether by its end
it had been asked to stop. -/
structure Outcome where
  result : Except ImportError Catalog
  events : List Event
  stopped : Bool

end Import

/-- The import of a source that stands at `start`, where `stopped` tells whether it has
been asked to stop beforehand. -/
def Catalog.ofSource (settings : Import.Settings) (path : SourcePath) (source : Source)
    (start : Nat) (stopped : Bool) : Import.Outcome :=
  match Cursor.open? source start stopped with
  | .error reason => ⟨.error (.unread reason), [], stopped⟩
  | .ok cursor =>
    match Import.run settings { cursor, catalog := { path } } with
    | .ok _ s => ⟨.ok s.catalog, s.events.toList, s.cursor.stopped⟩
    | .error e s => ⟨.error e, s.events.toList, s.cursor.stopped⟩

end AsmCatalog
