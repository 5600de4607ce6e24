/-
Comments.

Main definitions:
* `commentText` — what a comment line says;
* `withoutComment` — the part of a statement line before its comment.
-/
import AsmCatalog.Text.Normal

namespace AsmCatalog

/-- What a comment line says: every semicolon counts as a space. -/
def commentText (line : Text) : Text :=
  Text.normalize (line.map fun c => if c = ';' then ' ' else c)

/-- The part of a line before its first semicolon.  Quotes do not protect one. -/
def withoutComment (line : Text) : Text := line.takeWhile (· ≠ ';')

end AsmCatalog
