/-
Equates: `NAME EQU VALUE`.

Main definition:
* `Equate.parse?` — the equate that a line of code is.
-/
import AsmCatalog.Chunk
import AsmCatalog.Mode

namespace AsmCatalog.Equate

/-- The keyword of an equate. -/
def equateKeyword : Text := ['e', 'q', 'u']

/-- Whether a token is taken for the keyword: in legacy mode it only has to mention it. -/
def acceptsKeyword (mode : Mode) (token : Text) : Bool :=
  match mode with
  | .legacy => Text.mentions token equateKeyword
  | .strict => Text.spells token equateKeyword

/-- The equate that a line of code is.  What follows the value is ignored. -/
def parse? (mode : Mode) (code : Text) : Option Equate :=
  match Text.tokens (Text.normalize code) with
  | name :: keyword :: value :: _ =>
    if acceptsKeyword mode keyword then some ⟨name, value⟩ else none
  | _ => none

end AsmCatalog.Equate
