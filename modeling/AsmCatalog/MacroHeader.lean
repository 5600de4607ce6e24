/-
Headers of macro definitions: `NAME MACRO parameter, parameter`.

Main definitions:
* `MacroHeader.recognized` — the second token of a line is the keyword;
* `MacroHeader.parse?` — the name and the declared parameters of a header;
* `endsMacro` — a line ends the definition that it stands in.
-/
import AsmCatalog.Mode
import AsmCatalog.Text.Keyword
import AsmCatalog.Text.Normal

namespace AsmCatalog

/-- The name of a macro and its declared parameters, in order. -/
structure MacroHeader where
  name : Text
  parameters : List Text
deriving DecidableEq

/-- The keyword of a macro header. -/
def macroKeyword : Text := ['m', 'a', 'c', 'r', 'o']

/-- The keyword that ends a macro definition. -/
def endKeyword : Text := ['e', 'n', 'd', 'm']

/-- Whether a line ends the definition that it stands in: the keyword occurs anywhere,
in any spelling. -/
def endsMacro (line : Text) : Bool := Text.mentions line endKeyword

namespace MacroHeader

/-- Whether the second token of a line is the keyword in any spelling. -/
def recognized (line : Text) : Bool :=
  match Text.tokens (Text.normalize line) with
  | _ :: keyword :: _ => Text.spells keyword macroKeyword
  | _ => false

/-- What follows the first place where `word`, in lower case, stands in the text in any
spelling of the letters A to Z. -/
def after? (word : Text) : Text → Option Text
  | [] => if word.isEmpty then some [] else none
  | c :: rest =>
    if Text.lowerLetters ((c :: rest).take word.length) = word then
      some ((c :: rest).drop word.length)
    else after? word rest

/-- The declared parameters: the parts between commas that are not blank. -/
def splitParameters (text : Text) : List Text :=
  ((text.splitOn ',').map Text.trim).filter (· ≠ [])

/-- The part of a header that declares parameters, given the tokens behind the keyword.
By the legacy rule it follows the first `macro ` of the header, which may stand inside
the name. -/
def parameterText? (mode : Mode) (header : Text) (behind : List Text) : Option Text :=
  match mode with
  | .legacy => after? (macroKeyword ++ [' ']) header
  | .strict => some ([' '].intercalate behind)

/-- The name and parameters of a header in normal form. -/
def parse? (mode : Mode) (header : Text) : Option MacroHeader :=
  match Text.tokens header with
  | name :: keyword :: behind =>
    if Text.spells keyword macroKeyword then
      if behind.isEmpty then some ⟨name, []⟩
      else (parameterText? mode header behind).map fun text => ⟨name, splitParameters text⟩
    else none
  | _ => none

/-- The name that a header in normal form gives to a macro even if it is malformed: its
first token, if there is a second one. -/
def nameOf (header : Text) : Text :=
  match Text.tokens header with
  | name :: _ :: _ => name
  | _ => []

/-- A header gives its macro the name that it would give a malformed one. -/
theorem name_of_parse? {mode : Mode} {line : Text} {header : MacroHeader}
    (h : parse? mode line = some header) : header.name = nameOf line := by
  rw [parse?] at h
  rw [nameOf]
  split at h
  · split at h
    · split at h
      · rw [← Option.some.inj h]
      · obtain ⟨text, -, rfl⟩ := Option.map_eq_some_iff.mp h
        rfl
    · exact absurd h (by simp)
  · exact absurd h (by simp)

end MacroHeader

end AsmCatalog
