/-
The arguments of a call.

A comma ends an argument.  Angle brackets enclose text that is taken as it stands,
commas included; outside them only letters and numbers are kept.

Main definitions:
* `splitArgumentsFrom` — the arguments in a text that begins inside or outside brackets;
* `splitArguments` — the arguments in a text;
* `Argument.value` — an argument read as a literal.
-/
import AsmCatalog.Chunk
import AsmCatalog.Literal
import AsmCatalog.Unicode.Alphanumeric

namespace AsmCatalog

open Unicode (isAlphanumeric)

/-- The arguments in a text, the first of which may begin inside brackets.  The last
one is kept even if it is empty, and ends at the end of the text even inside brackets. -/
def splitArgumentsFrom (inside : Bool) : Text → List Text
  | [] => [[]]
  | c :: rest =>
    if inside then
      if c = '>' then splitArgumentsFrom false rest
      else (splitArgumentsFrom true rest).modifyHead (c :: ·)
    else if c = ',' then [] :: splitArgumentsFrom false rest
    else if c = '<' then splitArgumentsFrom true rest
    else if isAlphanumeric c then (splitArgumentsFrom false rest).modifyHead (c :: ·)
    else splitArgumentsFrom false rest

/-- The arguments in a text. -/
def splitArguments (text : Text) : List Text := splitArgumentsFrom false text

/-- An argument read as a literal. -/
def Argument.value (a : Argument) : Int := Literal.value a.content

/-- Arguments receive the declared names in order, as far as there are any. -/
def nameArguments (parameters : List Text) (contents : List Text) : List Argument :=
  contents.mapIdx fun i content => ⟨content, parameters[i]?⟩

end AsmCatalog
