/-
Statements whose callees are exchanged.

Of the macros that it can call a statement reads names and parameters alone.  So if every
name stands for another macro with the same name and parameters, the statement is the same but
for its callee.

Main definitions:
* `Statement.withCallee` — a statement with another callee, if it calls a macro;
* `Macro.SameHead` — a change of macros that keeps their names and parameters.

Main statement:
* `Statement.parse_withCallee` — where names stand for other macros, the callee is another one.
-/
import AsmCatalog.Statement.Parse

namespace AsmCatalog

variable {β γ : Type}

/-- The call of the macro that `g` makes of the callee. -/
def Invocation.withCallee (g : Macro β → Macro γ) (i : Invocation β) : Invocation γ :=
  ⟨g i.callee, i.arguments⟩

/-- The form with another callee, if it is a call. -/
def Form.withCallee (g : Macro β → Macro γ) : Form β → Form γ
  | .equate e => .equate e
  | .invoke i => .invoke (i.withCallee g)

/-- The statement with another callee, if it is a call. -/
def Statement.withCallee (g : Macro β → Macro γ) (s : Statement β) : Statement γ :=
  ⟨s.text, s.label, s.form.map (Form.withCallee g)⟩

/-- The change keeps names and parameters. -/
structure Macro.SameHead (g : Macro β → Macro γ) : Prop where
  name : ∀ m, (g m).name = m.name
  parameters : ∀ m, (g m).parameters = m.parameters

section Exchange

variable {g : Macro β → Macro γ} (hg : Macro.SameHead g) {mode : Mode}
  {candidates : List (Macro β)} {candidates' : List (Macro γ)}
  (hresolve : ∀ name, resolveMacro? mode candidates' name =
    (resolveMacro? mode candidates name).map g)

include hg hresolve

theorem Invocation.parse?_withCallee (code : Text) :
    Invocation.parse? mode candidates' code =
      (Invocation.parse? mode candidates code).map (Invocation.withCallee g) := by
  rw [Invocation.parse?, Invocation.parse?, hresolve, Option.map_map, Option.map_map]
  refine congrArg (Option.map · _) (funext fun m => ?_)
  dsimp only [Function.comp_apply]
  cases (Text.trim code).dropWhile (· ≠ ' ') with
  | nil => rfl
  | cons c text => rw [hg.parameters]; rfl

theorem Form.parse?_withCallee (code : Text) :
    Form.parse? mode candidates' code =
      (Form.parse? mode candidates code).map (Form.withCallee g) := by
  rw [Form.parse?, Form.parse?]
  split
  · rfl
  · cases Equate.parse? mode code with
    | some e => rfl
    | none =>
      simp only [Invocation.parse?_withCallee hg hresolve, Option.map_map]
      rfl

/-- Where every name stands for another macro with the same name and parameters, a statement
differs in its callee alone. -/
theorem Statement.parse_withCallee (line : Text) :
    Statement.parse mode candidates' line =
      (Statement.parse mode candidates line).withCallee g := by
  rw [Statement.parse, Statement.parse]
  simp only [Form.parse?_withCallee hg hresolve]
  rfl

end Exchange

end AsmCatalog
