/-
A stack machine that nests macro definitions.

The machine takes the lines of a source one after the other.  A header is pushed, and any
other line with the end keyword closes the macro on top.  A closed macro whose own header
has the keyword closes the one below it as well, and the end of the input closes all.
What it finds is what the outline of the lines has, although an outline grows by
recursion and the machine has only its stack.

Main definitions:
* `Machine` — the open macros, the spans of the closed ones, and the owners of the lines;
* `Machine.step`, `Machine.close`, `Machine.run` — a line, a closing, a whole run;
* `Outline.spans`, `Outline.owners` — the same, read off an outline.

Main statements:
* `Machine.run_body` — a run over the lines of a body comes to a closing behind it;
* `Machine.ofLines_eq` — the machine finds what the outline of the lines has.
-/
import AsmCatalog.Proofs.LineContent

namespace AsmCatalog

/-- A macro as lines: its header, the last line that it covers, and the header of the
macro around it. -/
structure Span where
  header : PhysicalLine
  last : PhysicalLine
  around : Option PhysicalLine
deriving DecidableEq

/-- The open macros by their headers, the innermost first; the closed macros in the order
in which they were closed; and each line with the macro that was on top of the stack
when the line was reached. -/
structure Machine where
  opened : List PhysicalLine := []
  spans : List Span := []
  owners : List (PhysicalLine × Option PhysicalLine) := []

namespace Machine

/-- The macros that are closed when the one on top is: a header that has the end keyword
closes the macro below it too. -/
def closed (last : PhysicalLine) : List PhysicalLine → List Span
  | [] => []
  | h :: outer => ⟨h, last, outer.head?⟩ :: if h.ends then closed last outer else []

/-- The macros that are left open when the one on top is closed. -/
def leftOpen : List PhysicalLine → List PhysicalLine
  | [] => []
  | h :: outer => if h.ends then leftOpen outer else outer

/-- All open macros are closed from the inside out. -/
def closedAll (last : PhysicalLine) : List PhysicalLine → List Span
  | [] => []
  | h :: outer => ⟨h, last, outer.head?⟩ :: closedAll last outer

/-- The macro on top, if there is one, ends with the line `last`. -/
def close (m : Machine) (last : PhysicalLine) : Machine :=
  { m with opened := leftOpen m.opened, spans := m.spans ++ closed last m.opened }

/-- A line is taken: a header is pushed, and any other line with the end keyword closes
the macro on top. -/
def step (m : Machine) (l : PhysicalLine) : Machine :=
  let reached := { m with owners := m.owners ++ [(l, m.opened.head?)] }
  match l.kind with
  | .macroDef => { reached with opened := l :: m.opened }
  | _ => if l.ends then reached.close l else reached

/-- At the end of the input, behind the line `last`, all macros are closed. -/
def finish (m : Machine) (last : PhysicalLine) : Machine :=
  { m with opened := [], spans := m.spans ++ closedAll last m.opened }

/-- The lines are taken one after the other behind the line `last`. -/
def run (m : Machine) (last : PhysicalLine) : List PhysicalLine → Machine
  | [] => m.finish last
  | l :: rest => run (m.step l) l rest

/-- A run over all lines of a source. -/
def ofLines : List PhysicalLine → Machine
  | [] => {}
  | l :: rest => run (step {} l) l rest

end Machine

namespace Outline

/-- The spans of the definitions of an outline inside a macro, or outside all of them. -/
def spans (around : Option PhysicalLine) : Outline → List Span
  | nil => []
  | line _ next => next.spans around
  | definition h body _ next =>
    body.spans (some h) ++ ⟨h, body.lines.getLastD h, around⟩ :: next.spans around

/-- The lines of an outline with the macros that they belong to. -/
def owners (around : Option PhysicalLine) : Outline → List (PhysicalLine × Option PhysicalLine)
  | nil => []
  | line l next => (l, around) :: next.owners around
  | definition h body _ next =>
    (h, around) :: (body.owners (some h) ++ next.owners around)

end Outline

/-! ### The machine follows the outline -/

theorem getLastD_append {α : Type} (a b : List α) (last : α) :
    (a ++ b).getLastD last = b.getLastD (a.getLastD last) := by
  induction a generalizing last with
  | nil => rfl
  | cons x rest ih => rw [List.cons_append, List.getLastD_cons, List.getLastD_cons, ih]

namespace Machine

variable {lines left : List PhysicalLine} {o : Outline} {ended : Bool}

/-- The machine when it has found what an outline has, without the macro around it. -/
def after (m : Machine) (o : Outline) : Machine :=
  { m with
    spans := m.spans ++ o.spans m.opened.head?
    owners := m.owners ++ o.owners m.opened.head? }

/-- Closing the macro on top makes no difference at the end of the input. -/
theorem closed_append_closedAll (last : PhysicalLine) (opened : List PhysicalLine) :
    closed last opened ++ closedAll last (leftOpen opened) = closedAll last opened := by
  induction opened with
  | nil => rfl
  | cons h outer ih =>
    rw [closed, leftOpen, closedAll, List.cons_append]
    cases h.ends with
    | true => exact congrArg _ ih
    | false => rfl

theorem finish_close (m : Machine) (last : PhysicalLine) :
    (m.close last).finish last = m.finish last := by
  rw [finish, close, finish, List.append_assoc, closed_append_closedAll]

theorem step_header {l : PhysicalLine} (h : l.kind = .macroDef) (m : Machine) :
    m.step l = { m with
      opened := l :: m.opened
      owners := m.owners ++ [(l, m.opened.head?)] } := by
  rw [step, h]

theorem step_line {l : PhysicalLine} (h : l.kind ≠ .macroDef) (m : Machine) :
    m.step l =
      if l.ends then (m.after (.line l .nil)).close l else m.after (.line l .nil) := by
  have hspans : m.after (.line l .nil) =
      { m with owners := m.owners ++ [(l, m.opened.head?)] } := by
    rw [after, Outline.spans, Outline.spans, List.append_nil]
    rfl
  rw [hspans, step]
  rcases PhysicalLine.kind_cases h with hk | hk <;> rw [hk]

theorem after_nil (m : Machine) : m.after .nil = m := by
  simp [after, Outline.spans, Outline.owners]

theorem after_line (m : Machine) (l : PhysicalLine) (next : Outline) :
    (m.after (.line l .nil)).after next = m.after (.line l next) := by
  simp [after, Outline.spans, Outline.owners]

theorem after_definition (m : Machine) (h : PhysicalLine) (body : Outline) (ended : Bool)
    (next : Outline) :
    (m.after (.definition h body ended .nil)).after next =
      m.after (.definition h body ended next) := by
  simp [after, Outline.spans, Outline.owners]

/-- A definition whose header was pushed is found when its body has been closed. -/
theorem close_after_header {g : PhysicalLine} (hkind : g.kind = .macroDef) (m : Machine)
    (body : Outline) (ended : Bool) :
    ((m.step g).after body).close (body.lines.getLastD g) =
      if g.ends then (m.after (.definition g body ended .nil)).close (body.lines.getLastD g)
      else m.after (.definition g body ended .nil) := by
  rw [step_header hkind]
  cases hends : g.ends with
  | true => simp [after, close, closed, leftOpen, hends, Outline.spans, Outline.owners]
  | false => simp [after, close, closed, leftOpen, hends, Outline.spans, Outline.owners]

/-- A run over lines that begin with a body: the body is found, and with its last line the
macro on top is closed. -/
theorem run_body (hb : BodyOutline lines o ended left) (m : Machine) (last : PhysicalLine) :
    m.run last lines =
      ((m.after o).close (o.lines.getLastD last)).run (o.lines.getLastD last) left := by
  induction hb generalizing m last with
  | nil =>
    -- At the end of the input all macros are closed, whether one was closed before or not.
    rw [after_nil]
    exact (finish_close m last).symm
  | lastLine hkind hends =>
    rw [run, step_line hkind, if_pos hends]
    rfl
  | line hkind hends _ ih =>
    rw [run, step_line hkind, if_neg (by simp [hends]), ih, after_line, Outline.lines,
      List.getLastD_cons]
  | lastDefinition hkind hends hbody ih =>
    -- The closing of the nested macro goes on to the one around it, as its header says.
    rw [run, ih, close_after_header hkind, if_pos hends, Outline.lines, Outline.lines,
      List.append_nil, List.getLastD_cons]
  | definition hkind hends hbody hnext ihb ihn =>
    -- The nested macro is closed alone, and the macro around it is on top again.
    rw [run, ihb, close_after_header hkind, if_neg (by simp [hends]), ihn, after_definition,
      Outline.lines, List.getLastD_cons, getLastD_append]

theorem close_of_opened_nil {m : Machine} (h : m.opened = []) (last : PhysicalLine) :
    m.close last = m := by
  obtain ⟨opened, spans, owners⟩ := m
  cases h
  simp [close, leftOpen, closed]

/-- Outside all macros a run finds what the outline of the lines has. -/
theorem run_file (ho : FileOutline lines o) (m : Machine) (hopened : m.opened = [])
    (last : PhysicalLine) : m.run last lines = m.after o := by
  induction ho generalizing m last with
  | nil =>
    rw [after_nil, run, finish, hopened, closedAll, List.append_nil, ← hopened]
  | @line l rest next hkind _ ih =>
    have hfound : (m.after (.line l .nil)).opened = [] := hopened
    rw [run, step_line hkind, close_of_opened_nil hfound, ite_self, ih _ hfound, after_line]
  | @definition h rest left body next ended hkind hbody _ ih =>
    have hfound : (m.after (.definition h body ended .nil)).opened = [] := hopened
    rw [run, run_body hbody, close_after_header hkind m body ended,
      close_of_opened_nil hfound, ite_self, ih _ hfound, after_definition]

/-- The machine finds what the outline of the lines has. -/
theorem ofLines_eq (ho : FileOutline lines o) :
    (ofLines lines).spans = o.spans none ∧ (ofLines lines).owners = o.owners none := by
  have hafter : ofLines lines = after {} o := by
    cases lines with
    | nil =>
      cases ho
      rfl
    | cons l rest => exact run_file ho {} rfl l
  rw [hafter]
  exact ⟨List.nil_append _, List.nil_append _⟩

end Machine

end AsmCatalog
