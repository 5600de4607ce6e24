/-
The program: it reads the files that the command line names, runs, and prints.

Main definition:
* `main` — catalogs go to standard output, events and errors to standard error.
-/
import AsmCatalog.CommandLine.Log
import AsmCatalog.CommandLine.Run
import AsmCatalog.FileTree

namespace AsmCatalog.CommandLine

/-- The help that the program shows. -/
def helpText : String :=
  "Importer for 65816 assembly sources.

Splits each input into comments, statement lines and macro definitions, records
EQU constants and resolves macro invocations against the macros of the include
files. Nothing is assembled or expanded.

Usage: asmcatalog [OPTIONS]

Options:
  -i, --infile <FILE>       Assembly source to import (repeatable)
  -I, --include <FILE>      Include file whose macros are visible (repeatable)
  -e, --expect <NAME>       Include file basename the inputs expect (repeatable)
      --strict              Case-insensitive macro names and whole EQU keywords
      --format <FORMAT>     Output format: text or json
      --timeout-ms <N>      Time limit for each file in milliseconds
      --log-level <LEVEL>   TRACE, DEBUG, INFO, WARN or ERROR
  -h, --help                Print help
  -V, --version             Print version"

/-- What the program says when it does not run. -/
def usageText : UsageError → String
  | .helpWanted => helpText
  | .versionWanted => "asmcatalog 1.0"
  | .unknownArgument => "error: unexpected argument"
  | .missingValue => "error: an option has no value"
  | .unknownValue => "error: an option has an invalid value"
  | .malformedValue => "error: an option has a malformed value"
  | .repeated => "error: an option cannot be used more than once"
  | .unneededValue => "error: an option takes no value"

/-- What opening a path gives, by the error that reading it raised. -/
def openFailure : IO.Error → Except Text Source
  | .noFileOrDirectory .. => .error OpenError.missing.message
  | .inappropriateType _ 21 _ => .ok FileTree.directorySource
  | .inappropriateType .. => .error OpenError.throughFile.message
  | .invalidArgument .. => .error OpenError.nameTooLong.message
  | .permissionDenied .. => .error "Permission denied (os error 13)".toList
  | e => .error (toString e).toList

/-- The source at a path. -/
def readSource (path : SourcePath) : IO (Except Text Source) := do
  match FileTree.pieces path with
  | .error e => return .error e.message
  | .ok _ =>
    try
      return .ok (.ofBytes (← IO.FS.readBinFile (String.ofList path.text)).toList)
    catch e => return openFailure e

/-- The sources at several paths. -/
def readSources (paths : List SourcePath) : IO (List (SourcePath × Except Text Source)) :=
  paths.mapM fun path => return (path, ← readSource path)

/-- How paths are opened when their sources have been read. -/
def openerOf (sources : List (SourcePath × Except Text Source)) : Opener := fun path =>
  match sources.find? (·.1 == path) with
  | some (_, source) => source
  | none => .error OpenError.missing.message

end AsmCatalog.CommandLine

open AsmCatalog.CommandLine

/-- The program. -/
def main (args : List String) : IO UInt32 := do
  let out ← IO.getStdout
  let err ← IO.getStderr
  match Arguments.parse (args.map String.toList) with
  | .error e =>
    (if e.exitCode = 0 then out else err).putStrLn (usageText e)
    return UInt32.ofNat e.exitCode
  | .ok a =>
    let report := run a (openerOf (← readSources (a.includes ++ a.inputs)))
    for e in shownEvents a.logLevel report.events do
      err.putStrLn (String.ofList e.logLine)
    out.write ⟨report.written.toArray⟩
    out.flush
    match report.error? with
    | none => return 0
    | some e =>
      err.putStrLn s!"ERROR {e.message}"
      return 1
