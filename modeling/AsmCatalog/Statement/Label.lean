/-
Labels.

A statement line may begin with a dot label, which runs to the first space.  A colon
label is a name before a colon; it is recognized on its own and is no part of a statement.

Main definitions:
* `dotLabel` — the dot label of a line of code, and the code behind it;
* `colonLabel?` — the name before the first colon.
-/
import AsmCatalog.Text.Normal

namespace AsmCatalog

/-- The dot label of a line of code, and the code behind it. -/
def dotLabel (code : Text) : Option Text × Text :=
  match Text.trimStart code with
  | '.' :: rest =>
    if ' ' ∈ rest then (some (rest.takeWhile (· ≠ ' ')), rest.dropWhile (· ≠ ' '))
    else (some (Text.trimEnd rest), [])
  | _ => (none, code)

/-- The name before the first colon of a line. -/
def colonLabel? (line : Text) : Option Text :=
  let normal := Text.normalize line
  if ':' ∈ normal then some (normal.takeWhile (· ≠ ':')) else none

end AsmCatalog
