/-
A run of the program: the includes are imported in order, each seeing those before it,
then the inputs, each seeing all includes, and the catalogs are written.

Main definitions:
* `RunError` — why a run fails;
* `Configuration`, `Configuration.ofArguments` — what a valid command line asks for;
* `Configuration.importAll` — the imports of a run;
* `Configuration.document`, `deliver` — what is written, and what an output of limited
  capacity takes of it;
* `run` — a whole run.
-/
import AsmCatalog.CommandLine.Arguments
import AsmCatalog.Import
import AsmCatalog.IncludeReport
import AsmCatalog.Listing
import AsmCatalog.Summary

namespace AsmCatalog.CommandLine

/-- Why a run fails. -/
inductive RunError where
  | noInputs
  | zeroTimeLimit
  | importFailed (e : ImportError)
  | unwritten (reason : Text)
  | unencoded (reason : Text)
deriving DecidableEq

/-- The wording of an error. -/
def RunError.message : RunError → String
  | noInputs => "No input files specified. Use -i/--infile"
  | zeroTimeLimit => "--timeout-ms must be at least 1"
  | importFailed e => e.message
  | unwritten reason => s!"Error writing output: {String.ofList reason}"
  | unencoded reason => s!"Error encoding JSON: {String.ofList reason}"

/-- What a valid command line asks for. -/
structure Configuration where
  inputs : List SourcePath
  includes : List SourcePath
  expected : List Text
  mode : Mode
  format : Format

/-- The configuration of a command line, which must have an input and may not set a time
limit of zero.  An import that stays below its limit does not depend on it. -/
def Configuration.ofArguments (a : Arguments) : Except RunError Configuration :=
  if a.inputs.isEmpty then .error .noInputs
  else if a.timeLimit? = some 0 then .error .zeroTimeLimit
  else
    .ok ⟨a.inputs, a.includes, a.expected, if a.strict then .strict else .legacy, a.format⟩

/-- How paths are opened. -/
abbrev Opener := SourcePath → Except Text Source

/-- The import of the file at a path. -/
def importPath (opener : Opener) (settings : Import.Settings) (path : SourcePath) :
    Import.Outcome :=
  match opener path with
  | .ok source => Catalog.ofSource settings path source 0 false
  | .error reason => ⟨.error (.unopened path reason), [], false⟩

/-- What comes of several imports: the events of all, and the catalogs or the error of the
first that failed. -/
structure Batch (α : Type) where
  events : List Event
  result : Except ImportError α

/-- The imports of several files in order, behind those that gave `done`.  `sees` tells
which includes a file sees, given the files before it. -/
def importEach (opener : Opener) (mode : Mode) (sees : List Catalog → List Catalog)
    (done : List Catalog) : List SourcePath → Batch (List Catalog)
  | [] => ⟨[], .ok done⟩
  | path :: rest =>
    let outcome := importPath opener { mode, includes := sees done } path
    match outcome.result with
    | .error e => ⟨outcome.events, .error e⟩
    | .ok file =>
      let later := importEach opener mode sees (done ++ [file]) rest
      ⟨outcome.events ++ later.events, later.result⟩

/-- The catalogs of a run. -/
structure Catalogs where
  includes : List Catalog
  inputs : List Catalog

namespace Configuration

/-- The imports of a run. -/
def importAll (c : Configuration) (opener : Opener) : Batch Catalogs :=
  let first := importEach opener c.mode id [] c.includes
  match first.result with
  | .error e => ⟨first.events, .error e⟩
  | .ok includes =>
    let second := importEach opener c.mode (fun _ => includes) [] c.inputs
    ⟨first.events ++ second.events, second.result.map fun inputs => ⟨includes, inputs⟩⟩

/-- The listings, with the report on missing includes behind them. -/
def textDocument (c : Configuration) (files : Catalogs) : Text :=
  (files.includes ++ files.inputs).flatMap Catalog.listing ++
    ((includeReport? c.expected files.includes).map (· ++ ['\n'])).getD []

/-- The summaries as one JSON document. -/
def jsonDocument (files : Catalogs) : Text :=
  Json.pretty (.list ((files.includes ++ files.inputs).map Catalog.summary)) ++ ['\n']

/-- What is written. -/
def document (c : Configuration) (files : Catalogs) : Text :=
  match c.format with
  | .text => c.textDocument files
  | .json => jsonDocument files

end Configuration

/-- The reason that an output gives when it is full. -/
def outputFull : Text := "output limit reached".toList

/-- What an output takes, and why not everything if it does not. -/
structure Delivery where
  written : Bytes
  error? : Option RunError

/-- What an output that takes at most `limit` bytes takes of a document.  A JSON document
is encoded up to its last line end, which is written on its own. -/
def deliver (format : Format) (document : Text) (limit : Option Nat) : Delivery :=
  let bytes := Utf8.encode document
  match limit with
  | none => ⟨bytes, none⟩
  | some n =>
    if bytes.length ≤ n then ⟨bytes, none⟩
    else if format = .json ∧ n + 1 < bytes.length then
      ⟨bytes.take n, some (.unencoded outputFull)⟩
    else ⟨bytes.take n, some (.unwritten outputFull)⟩

/-- What comes of a run: the bytes written, the events, and the error if it failed. -/
structure Report where
  written : Bytes
  events : List Event
  error? : Option RunError

/-- The imports that a command line asks for, whose catalogs are written to an output that
may have a limit.  `last` gives the events behind those of the imports. -/
def attempt (a : Arguments) (opener : Opener) (limit : Option Nat)
    (last : Catalogs → List Event) : Report :=
  match Configuration.ofArguments a with
  | .error e => ⟨[], [], some e⟩
  | .ok c =>
    let batch := c.importAll opener
    match batch.result with
    | .error e => ⟨[], batch.events, some (.importFailed e)⟩
    | .ok files =>
      let delivery := deliver c.format (c.document files) limit
      ⟨delivery.written, batch.events ++ last files, delivery.error?⟩

/-- A whole run. -/
def run (a : Arguments) (opener : Opener) : Report :=
  attempt a opener none fun files => [.finished files.includes.length files.inputs.length]

/-- The imports of a run and their output alone, to an output that takes at most `limit`
bytes. -/
def runInto (a : Arguments) (opener : Opener) (limit : Nat) : Report :=
  attempt a opener (some limit) fun _ => []

/-- The events that are shown at a level. -/
def shownEvents (level : Level) (events : List Event) : List Event :=
  events.filter fun e => level.admits e.level

end AsmCatalog.CommandLine
