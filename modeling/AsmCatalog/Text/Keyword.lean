/-
Words that are recognized in any spelling of upper and lower case.

Main definitions:
* `spells` — a token is a keyword, by the full lower case mapping;
* `mentions` — a text has a keyword somewhere, by the full lower case mapping;
* `sameLetters` — two names differ at most in the case of the letters A to Z.
-/
import AsmCatalog.Unicode.Lowercase
import AsmCatalog.Text.Basic

namespace AsmCatalog.Text

open Unicode (lowercase)

/-- Whether `token` is the keyword, which is in lower case, in any spelling. -/
def spells (token keyword : Text) : Bool := lowercase token == keyword

/-- Whether `word` stands somewhere in `text`, in any spelling. -/
def mentions (text word : Text) : Bool := contains (lowercase word) (lowercase text)

/-- The letters A to Z in lower case, and every other character as it is. -/
def lowerLetters (text : Text) : Text := text.map Char.toLower

/-- Whether two names are the same up to the case of the letters A to Z. -/
def sameLetters (a b : Text) : Bool := lowerLetters a == lowerLetters b

@[simp] theorem length_lowerLetters (text : Text) : (lowerLetters text).length = text.length := by
  simp [lowerLetters]

@[simp] theorem lowerLetters_append (a b : Text) :
    lowerLetters (a ++ b) = lowerLetters a ++ lowerLetters b :=
  List.map_append

end AsmCatalog.Text
