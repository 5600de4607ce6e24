/-
Statement lines.

The comment is cut off and the dot label is set aside.  What remains is tried as an
equate first and as the call of a macro after that.

Main definitions:
* `Form.parse?` — what a line of code is;
* `Statement.parse` — the statement that a line is.
-/
import AsmCatalog.Comment
import AsmCatalog.Statement.Equate
import AsmCatalog.Statement.Invocation
import AsmCatalog.Statement.Label

namespace AsmCatalog

/-- What a line of code is, if it is anything. -/
def Form.parse? {β : Type} (mode : Mode) (candidates : List (Macro β)) (code : Text) :
    Option (Form β) :=
  if Text.isBlank code then none
  else
    match Equate.parse? mode code with
    | some e => some (.equate e)
    | none => (Invocation.parse? mode candidates code).map .invoke

/-- The statement that a line is, where the candidates are the macros that it can call. -/
def Statement.parse {β : Type} (mode : Mode) (candidates : List (Macro β)) (line : Text) :
    Statement β :=
  let (label, code) := dotLabel (withoutComment line)
  ⟨line, label, Form.parse? mode candidates code⟩

end AsmCatalog
