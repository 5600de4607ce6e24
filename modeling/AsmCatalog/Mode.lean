/-
The two sets of rules by which statements are recognized.

Main definition:
* `Mode` — legacy or strict.
-/

namespace AsmCatalog

/-- In legacy mode the keyword of an equate only has to mention `equ`, macro names are
matched in their exact spelling, and parameters follow the first `macro ` in a header.
In strict mode keywords are whole words, names match in any case, and parameters follow
the keyword. -/
inductive Mode where
  | legacy
  | strict
deriving DecidableEq, Inhabited

end AsmCatalog
