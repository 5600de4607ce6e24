/-
Calls of macros: `name argument, <text, with commas>`.

Main definitions:
* `resolveMacro?` — the macro that a name stands for;
* `Invocation.parse?` — the call that a line of code is.
-/
import AsmCatalog.Statement.Arguments
import AsmCatalog.Mode

namespace AsmCatalog

open Unicode (lowercase)

/-- The macro that a name stands for, among the candidates in order.  By the legacy rule
some candidate must have the name in lower case, and then the first with the exact name
is taken; so a name with capitals needs both spellings.  By the strict rule the first
whose name differs at most in the case of the letters A to Z is taken. -/
def resolveMacro? {β : Type} (mode : Mode) (candidates : List (Macro β)) (name : Text) :
    Option (Macro β) :=
  match mode with
  | .legacy =>
    let lowered := lowercase name
    if candidates.any (·.name == lowered) then candidates.find? (·.name == name) else none
  | .strict => candidates.find? (Text.sameLetters ·.name name)

/-- The call that a line of code is.  The name runs to the first space, and the
arguments follow it. -/
def Invocation.parse? {β : Type} (mode : Mode) (candidates : List (Macro β)) (code : Text) :
    Option (Invocation β) :=
  let call := Text.trim code
  (resolveMacro? mode candidates (call.takeWhile (· ≠ ' '))).map fun callee =>
    match call.dropWhile (· ≠ ' ') with
    | [] => ⟨callee, []⟩
    | _ :: text => ⟨callee, nameArguments callee.parameters (splitArguments text)⟩

end AsmCatalog
