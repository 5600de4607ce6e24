/-
The arguments of the command line.

Options have a short or a long spelling, or both.  The value of an option follows it as
the next word, or is attached to it: `-i v`, `-iv`, `-i=v`, `--infile v`, `--infile=v`.
A value is judged when the next option begins or the line ends, so a word that is no
option is refused before the value in front of it is.

Main definitions:
* `Setting`, `Switch` — the options that take a value, and those that take none;
* `Arguments` — what the options ask for;
* `UsageError` — why a command line is refused, or what it asks for instead of a run;
* `Arguments.parse` — the reading of a command line.
-/
import AsmCatalog.Event
import AsmCatalog.Literal

namespace AsmCatalog.CommandLine

/-- How the catalogs are written. -/
inductive Format where
  | text
  | json
deriving DecidableEq, Inhabited

/-- The options that take a value. -/
inductive Setting where
  | input
  | includeFile
  | expectation
  | format
  | timeLimit
  | logLevel
deriving DecidableEq

/-- The options that take none. -/
inductive Switch where
  | strict
  | help
  | version
deriving DecidableEq

/-- Why a command line is refused, or what it asks for instead of a run. -/
inductive UsageError where
  | unknownArgument
  | missingValue
  | unknownValue
  | malformedValue
  | repeated
  | unneededValue
  | helpWanted
  | versionWanted
deriving DecidableEq

/-- The exit code of a program that does not run. -/
def UsageError.exitCode : UsageError → Nat
  | helpWanted => 0
  | versionWanted => 0
  | _ => 2

/-- What the options ask for.  The time limit is in milliseconds. -/
structure Arguments where
  inputs : List SourcePath := []
  includes : List SourcePath := []
  expected : List Text := []
  strict : Bool := false
  format? : Option Format := none
  timeLimit? : Option Nat := none
  logLevel? : Option Level := none
deriving Inhabited

/-- The options with a long spelling. -/
def longOption? (name : Text) : Option (Setting ⊕ Switch) :=
  if name = "infile".toList then some (.inl .input)
  else if name = "include".toList then some (.inl .includeFile)
  else if name = "expect".toList then some (.inl .expectation)
  else if name = "format".toList then some (.inl .format)
  else if name = "timeout-ms".toList then some (.inl .timeLimit)
  else if name = "log-level".toList then some (.inl .logLevel)
  else if name = "strict".toList then some (.inr .strict)
  else if name = "help".toList then some (.inr .help)
  else if name = "version".toList then some (.inr .version)
  else none

/-- The options with a short spelling. -/
def shortOption? : Char → Option (Setting ⊕ Switch)
  | 'i' => some (.inl .input)
  | 'I' => some (.inl .includeFile)
  | 'e' => some (.inl .expectation)
  | 'h' => some (.inr .help)
  | 'V' => some (.inr .version)
  | _ => none

/-- The greatest number that an argument can write. -/
def greatestNumber : Nat := 18446744073709551615

/-- The number that decimal digits write, behind a `+` if there is one. -/
def natural? (text : Text) : Option Nat :=
  let digits := match text with
    | '+' :: rest => rest
    | _ => text
  (Literal.ofDigits? 10 digits).filter (· ≤ greatestNumber)

/-- The level that a word names, in any case or by a number from 1 for errors to 5 for
everything. -/
def level? (text : Text) : Option Level :=
  match natural? text with
  | some 1 => some .error
  | some 2 => some .warn
  | some 3 => some .info
  | some 4 => some .debug
  | some 5 => some .trace
  | _ => [Level.error, .warn, .info, .debug, .trace].find? fun l =>
      text.map Char.toUpper == l.name.toList

/-- The format that a word names. -/
def format? (text : Text) : Option Format :=
  if text = "text".toList then some .text
  else if text = "json".toList then some .json
  else none

/-- A path must not be empty. -/
def path? (text : Text) : Option SourcePath := if text.isEmpty then none else some ⟨text⟩

namespace Arguments

/-- The format, a text listing unless another is asked for. -/
def format (a : Arguments) : Format := a.format?.getD .text

/-- The level from which on events are shown. -/
def logLevel (a : Arguments) : Level := a.logLevel?.getD .warn

/-- The arguments with the value of an option.  Only inputs, includes and expected names
can be given more than once. -/
def set (a : Arguments) (setting : Setting) (value : Text) : Except UsageError Arguments :=
  match setting with
  | .input =>
    match path? value with
    | some path => .ok { a with inputs := a.inputs ++ [path] }
    | none => .error .unknownValue
  | .includeFile =>
    match path? value with
    | some path => .ok { a with includes := a.includes ++ [path] }
    | none => .error .unknownValue
  | .expectation => .ok { a with expected := a.expected ++ [value] }
  | .format =>
    if a.format?.isSome then .error .repeated
    else
      match CommandLine.format? value with
      | some format => .ok { a with format? := some format }
      | none => .error .unknownValue
  | .timeLimit =>
    if a.timeLimit?.isSome then .error .repeated
    else
      match natural? value with
      | some limit => .ok { a with timeLimit? := some limit }
      | none => .error .malformedValue
  | .logLevel =>
    if a.logLevel?.isSome then .error .repeated
    else
      match level? value with
      | some level => .ok { a with logLevel? := some level }
      | none => .error .malformedValue

/-- The arguments with an option that takes no value. -/
def turnOn (a : Arguments) : Switch → Except UsageError Arguments
  | .strict => if a.strict then .error .repeated else .ok { a with strict := true }
  | .help => .error .helpWanted
  | .version => .error .versionWanted

/-- An option whose value has not been judged, or has not even been met. -/
abbrev Pending := Option (Setting × Option Text)

/-- The arguments with the value that is still to be judged. -/
def settle (a : Arguments) : Pending → Except UsageError Arguments
  | none => .ok a
  | some (_, none) => .error .missingValue
  | some (setting, some value) => a.set setting value

/-- What a word of the command line is. -/
inductive Word where
  | divider
  | option (o : Option (Setting ⊕ Switch)) (attached : Option Text)
  | plain (text : Text)

/-- What follows the first `=` of a word, and what comes before it. -/
def cutAtEquals (text : Text) : Text × Option Text :=
  match text.dropWhile (· ≠ '=') with
  | [] => (text, none)
  | _ :: value => (text.takeWhile (· ≠ '='), some value)

/-- The reading of a word.  A single dash is no option.  A value that is attached to a
short option may have `=` before it; what follows a short option that takes no value does
not matter, since such an option ends the run. -/
def Word.read : Text → Word
  | ['-', '-'] => .divider
  | '-' :: '-' :: long =>
    let (name, attached) := cutAtEquals long
    .option (longOption? name) attached
  | ['-', c] => .option (shortOption? c) none
  | '-' :: c :: attached =>
    match shortOption? c with
    | some (.inr switch) => .option (some (.inr switch)) none
    | o =>
      match attached with
      | '=' :: value => .option o (some value)
      | value => .option o (some value)
  | text => .plain text

/-- The reading of the words behind those that gave `a` and a pending option. -/
def parseFrom (a : Arguments) (pending : Pending) : List Text → Except UsageError Arguments
  | [] => a.settle pending
  | text :: rest =>
    match Word.read text with
    | .divider => if rest.isEmpty then a.settle pending else .error .unknownArgument
    | .option none _ => .error .unknownArgument
    | .option (some (.inl setting)) (some value) => do
      let a ← a.settle pending
      parseFrom (← a.set setting value) none rest
    | .option (some (.inl setting)) none => do
      parseFrom (← a.settle pending) (some (setting, none)) rest
    | .option (some (.inr _)) (some _) => .error .unneededValue
    | .option (some (.inr switch)) none => do
      let a ← a.settle pending
      parseFrom (← a.turnOn switch) none rest
    | .plain value =>
      match pending with
      | some (setting, none) => parseFrom a (some (setting, some value)) rest
      | _ => .error .unknownArgument

/-- The reading of a command line. -/
def parse (words : List Text) : Except UsageError Arguments := parseFrom {} none words

end Arguments

end AsmCatalog.CommandLine
