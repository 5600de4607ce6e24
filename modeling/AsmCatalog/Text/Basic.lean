/-
Text, as the list of its characters.

Main definitions:
* `Text` — a list of characters;
* `trim`, `trimStart`, `trimEnd`, `isBlank` — white space at the ends;
* `contains` — the search for a word inside a text.

Main statement:
* `contains_iff` — the search finds exactly the infixes.
-/
import AsmCatalog.Unicode.WhiteSpace

namespace AsmCatalog

/-- A text is the list of its characters. -/
abbrev Text := List Char

namespace Text

open Unicode (isWhiteSpace)

/-- The text without the white space at its start. -/
def trimStart (text : Text) : Text := text.dropWhile isWhiteSpace

/-- The text without the white space at its end. -/
def trimEnd (text : Text) : Text := (text.reverse.dropWhile isWhiteSpace).reverse

/-- The text without the white space at both ends. -/
def trim (text : Text) : Text := trimEnd (trimStart text)

/-- Whether the text holds nothing but white space. -/
def isBlank (text : Text) : Bool := text.all isWhiteSpace

/-- Whether `word` stands somewhere in the text. -/
def contains (word : Text) : Text → Bool
  | [] => word.isEmpty
  | c :: rest => word.isPrefixOf (c :: rest) || contains word rest

/-- The search finds exactly the words that are infixes. -/
theorem contains_iff {word text : Text} : contains word text = true ↔ word <:+: text := by
  induction text with
  | nil => simp [contains]
  | cons c rest ih => simp [contains, ih, List.infix_cons_iff]

end Text

end AsmCatalog
