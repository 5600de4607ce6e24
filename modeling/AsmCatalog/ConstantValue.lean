/-
The value of a text in which constants may stand for literals.

Main definitions:
* `findConstant?` — the constant that a name stands for;
* `substitute?` — the text that stands for a token that names a constant;
* `resolveFor`, `resolve` — substitution in rounds until no name is left.
-/
import AsmCatalog.Constant
import AsmCatalog.Text.Keyword
import AsmCatalog.Text.Normal

namespace AsmCatalog

open Unicode (lowercase)

/-- The last constant whose name is `name` in any spelling. -/
def findConstant? (constants : List Constant) (name : Text) : Option Constant :=
  constants.reverse.find? fun c => lowercase c.name == lowercase name

/-- The text that stands for a token that names a constant.  A `-` before the name stays
in front of the value. -/
def substitute? (constants : List Constant) : Text → Option Text
  | '-' :: name =>
    if name.isEmpty then none else (findConstant? constants name).map fun c => '-' :: c.value
  | name => if name.isEmpty then none else (findConstant? constants name).map (·.value)

/-- The number of rounds after which a chain of constants is given up. -/
def maxRounds : Nat := 32

/-- The number that a text of one token writes in decimal. -/
def soleNumber? : List Text → Option Int
  | [part] => Literal.decimal? part
  | _ => none

/-- The value of a text after at most so many rounds of substitution.  A round replaces
every token that names a constant and puts the tokens together without spaces. -/
def resolveFor (constants : List Constant) : Nat → Text → Int
  | 0, text => Literal.value text
  | rounds + 1, text =>
    let parts := Text.tokens (Text.normalize text)
    match soleNumber? parts with
    | some number => number
    | none =>
      let replaced := parts.flatMap fun part => (substitute? constants part).getD part
      if parts.any fun part => (substitute? constants part).isSome then
        resolveFor constants rounds replaced
      else Literal.value replaced

/-- The value of a text. -/
def resolve (constants : List Constant) (text : Text) : Int :=
  resolveFor constants maxRounds text

end AsmCatalog
