/-
Files that are moved.

The lines of a source may stand in another file, behind other bytes and lines.  Their
chunks are then the same but for their places, as long as the macros that they can call
have the same names and parameters: of a callee a line looks at nothing else.

Main definitions:
* `Relocation` — another path, and how many bytes and lines further on;
* `Macro.bare`, `Statement.bare` — a macro without its body, and a statement that calls
  such a macro;
* `Chunk.relocated`, `Constant.relocated`, `Outline.relocated` — what is moved;
* `FileContext.Unshadowed` — the path of a file is that of no include.

Main statements:
* `Statement.parse_bare` — a statement reads the names and parameters of macros alone;
* `Outline.entries_relocated` — the entries of moved lines are the moved entries;
* `Outline.chunksBehind_relocated` — so are the top-level chunks of a file.
-/
import AsmCatalog.Proofs.Callee
import AsmCatalog.Proofs.LineContent

namespace AsmCatalog

/-! ### Callees without their bodies -/

section Bare

variable {β : Type}

/-- A macro without its body. -/
def Macro.bare (m : Macro β) : Macro β := { m with body := [] }

/-- A call of a macro without its body. -/
def Invocation.bare (i : Invocation β) : Invocation β := { i with callee := i.callee.bare }

/-- A form that calls, if anything, a macro without its body. -/
def Form.bare : Form β → Form β
  | .equate e => .equate e
  | .invoke i => .invoke i.bare

/-- A statement that calls, if anything, a macro without its body. -/
def Statement.bare (s : Statement β) : Statement β := { s with form := s.form.map Form.bare }

variable (mode : Mode) (candidates : List (Macro β))

/-- Macros are looked for by their names. -/
theorem resolveMacro?_bare (name : Text) :
    resolveMacro? mode (candidates.map Macro.bare) name =
      (resolveMacro? mode candidates name).map Macro.bare := by
  cases mode with
  | legacy =>
    have hany (lowered : Text) : (candidates.map Macro.bare).any (·.name == lowered) =
        candidates.any (·.name == lowered) := List.any_map
    rw [resolveMacro?.eq_1, resolveMacro?.eq_1]
    simp only [hany]
    split
    · exact List.find?_map ..
    · rfl
  | strict => exact List.find?_map ..

theorem Statement.withCallee_bare (s : Statement β) : s.withCallee Macro.bare = s.bare := by
  obtain ⟨text, label, form⟩ := s
  rcases form with _ | ⟨_ | _⟩ <;> rfl

/-- A statement reads the names and parameters of the macros that it can call, and not
their bodies. -/
theorem Statement.parse_bare (line : Text) :
    Statement.parse mode (candidates.map Macro.bare) line =
      (Statement.parse mode candidates line).bare := by
  have hhead : Macro.SameHead (@Macro.bare β) := ⟨fun _ => rfl, fun _ => rfl⟩
  rw [← Statement.withCallee_bare,
    Statement.parse_withCallee hhead (resolveMacro?_bare mode candidates)]

end Bare

/-! ### What is moved -/

/-- Where something is moved: to another file, and so many bytes and lines further on. -/
structure Relocation where
  path : SourcePath
  bytes : Nat := 0
  lines : Nat := 0

variable (r : Relocation)

/-- The chunk at its new place, with all that is in it, where callees are told by their
names and parameters. -/
def Chunk.relocated : Chunk → Chunk :=
  fold fun c inner => ⟨r.path, c.position + r.bytes, c.line + r.lines, c.length,
    match c.content with
    | .comment text => .comment text
    | .statement s => .statement s.bare
    | .macroDef m => .macroDef { m with body := inner }⟩

/-- The constant at its new place. -/
def Constant.relocated (c : Constant) : Constant :=
  { c with path := r.path, position := c.position + r.bytes, line := c.line + r.lines }

/-- The line at its new place, with the same text. -/
def PhysicalLine.relocated (l : PhysicalLine) : PhysicalLine :=
  { l with position := l.position + r.bytes, number := l.number + r.lines }

/-- The outline with its lines at their new places. -/
def Outline.relocated : Outline → Outline
  | nil => nil
  | line l next => line (l.relocated r) next.relocated
  | definition h body ended next =>
    definition (h.relocated r) body.relocated ended next.relocated

/-- What lines are read with in the new file, where callees are told by their names and
parameters. -/
def LineContext.relocated (x : LineContext) : LineContext :=
  { x with path := r.path, candidates := x.candidates.map Macro.bare }

namespace Chunk

theorem relocated_eq (c : Chunk) :
    c.relocated r = ⟨r.path, c.position + r.bytes, c.line + r.lines, c.length,
      match c.content with
      | .comment text => .comment text
      | .statement s => .statement s.bare
      | .macroDef m => .macroDef { m with body := m.body.map (Option.map (relocated r)) }⟩ := by
  rw [relocated, fold_eq]
  obtain ⟨path, position, line, length, content⟩ := c
  cases content <;> rfl

/-- Names and parameters stay as they are. -/
theorem definition?_relocated (c : Chunk) :
    (c.relocated r).definition?.map Macro.bare = c.definition?.map Macro.bare := by
  rw [relocated_eq]
  obtain ⟨path, position, line, length, content⟩ := c
  cases content <;> rfl

end Chunk

/-- Nothing is moved by no bytes and no lines. -/
theorem PhysicalLine.relocated_path (path : SourcePath) (l : PhysicalLine) :
    l.relocated { path } = l := by
  obtain ⟨position, number, bytes, text⟩ := l
  simp [relocated]

namespace Outline

@[simp] theorem lines_relocated (o : Outline) :
    (o.relocated r).lines = o.lines.map (PhysicalLine.relocated r) := by
  induction o with
  | nil => rfl
  | line l next ih => rw [relocated, lines, lines, ih, List.map_cons]
  | definition h body ended next ihb ihn =>
    rw [relocated, lines, lines, ihb, ihn, List.map_cons, List.map_append]

theorem relocated_path (path : SourcePath) (o : Outline) : o.relocated { path } = o := by
  induction o with
  | nil => rfl
  | line l next ih => rw [relocated, ih, PhysicalLine.relocated_path]
  | definition h body ended next ihb ihn => rw [relocated, ihb, ihn, PhysicalLine.relocated_path]

end Outline

theorem extent_relocated (lines : List PhysicalLine) :
    extent (lines.map (PhysicalLine.relocated r)) = extent lines := by
  induction lines with
  | nil => rfl
  | cons l rest ih => rw [List.map_cons, extent_cons, extent_cons, ih]; rfl

/-! ### What moved lines make -/

namespace PhysicalLine

theorem entry_relocated (l : PhysicalLine) (x : LineContext) :
    (l.relocated r).entry (x.relocated r) = (l.entry x).map (Chunk.relocated r) := by
  have hstatement : (if l.isBlank then none else
        some ⟨r.path, l.position + r.bytes, l.number + r.lines, l.bytes.length,
          .statement (.parse x.mode (x.candidates.map Macro.bare) l.text)⟩) =
      (if l.isBlank then none else
        some ⟨x.path, l.position, l.number, l.bytes.length,
          .statement (.parse x.mode x.candidates l.text)⟩).map (Chunk.relocated r) := by
    split
    · rfl
    · rw [Option.map_some, Chunk.relocated_eq, Statement.parse_bare]
  have hkind : (l.relocated r).kind = l.kind := rfl
  rw [entry, entry, hkind]
  cases l.kind with
  | comment =>
    simp only [Option.map_some, Chunk.relocated_eq]
    rfl
  | macroDef => exact hstatement
  | statement => exact hstatement

theorem definition_relocated (l : PhysicalLine) (x : LineContext) (header : MacroHeader)
    (entries : List (Option Chunk)) (length : Nat) :
    (l.relocated r).definition (x.relocated r) header
        (entries.map (Option.map (Chunk.relocated r))) length =
      (l.definition x header entries length).relocated r := by
  rw [Chunk.relocated_eq]
  rfl

theorem constant?_relocated (l : PhysicalLine) (path : SourcePath) (mode : Mode) :
    (l.relocated r).constant? r.path mode =
      (l.constant? path mode).map (Constant.relocated r) := by
  rw [constant?, constant?, Option.map_map]
  rfl

end PhysicalLine

namespace Outline

/-- The chunk of a moved definition, by what its body makes. -/
theorem definition?_relocated_of {body : Outline} {x : LineContext}
    (hbody : (body.relocated r).entries (x.relocated r) =
      (body.entries x).map (Option.map (Chunk.relocated r))) (h : PhysicalLine) :
    definition? (x.relocated r) (h.relocated r) (body.relocated r) =
      (definition? x h body).map (Chunk.relocated r) := by
  have hheader : (h.relocated r).header? (x.relocated r).mode = h.header? x.mode := rfl
  rw [definition?, definition?, hheader, hbody, lines_relocated, extent_relocated,
    Option.map_map]
  refine congrArg (Option.map · _) (funext fun header => ?_)
  exact PhysicalLine.definition_relocated r h x header _ _

theorem entries_relocated (o : Outline) (x : LineContext) :
    (o.relocated r).entries (x.relocated r) =
      (o.entries x).map (Option.map (Chunk.relocated r)) := by
  induction o with
  | nil => rfl
  | line l next ih =>
    rw [relocated, entries_line, entries_line, ih, PhysicalLine.entry_relocated, List.map_cons]
  | definition h body ended next ihb ihn =>
    rw [relocated, entries_definition, entries_definition, ihn, List.map_cons,
      definition?_relocated_of r ihb]

theorem definition?_relocated (h : PhysicalLine) (body : Outline) (x : LineContext) :
    definition? (x.relocated r) (h.relocated r) (body.relocated r) =
      (definition? x h body).map (Chunk.relocated r) :=
  definition?_relocated_of r (entries_relocated r body x) h

end Outline

/-! ### Whole files -/

/-- No include has the path of the file. -/
def FileContext.Unshadowed (f : FileContext) : Prop :=
  f.includes.any (·.path.same f.path) = false

theorem FileContext.callable_append {f : FileContext} (h : f.Unshadowed)
    (found more : List Chunk) :
    f.callable (found ++ more) = f.callable found ++ more.filterMap Chunk.definition? := by
  rw [callable, callable, h]
  simp

/-- Chunks that are the same at their new places define macros with the same names and
parameters. -/
theorem map_bare_definitions {r r' : Relocation} {new new' : List Chunk}
    (h : new.map (Chunk.relocated r) = new'.map (Chunk.relocated r')) :
    (new.filterMap Chunk.definition?).map Macro.bare =
      (new'.filterMap Chunk.definition?).map Macro.bare := by
  have hnew (r : Relocation) (new : List Chunk) :
      (new.filterMap Chunk.definition?).map Macro.bare =
        (new.map (Chunk.relocated r)).filterMap fun c => c.definition?.map Macro.bare := by
    rw [List.map_filterMap, List.filterMap_map]
    exact List.filterMap_congr fun c _ => (Chunk.definition?_relocated r c).symm
  rw [hnew r, hnew r', h]

theorem map_toList {α β : Type} {g g' : α → β} {e e' : Option α} (h : e.map g = e'.map g') :
    e.toList.map g = e'.toList.map g' := by
  rw [← Option.toList_map, ← Option.toList_map, h]

section Behind

variable {r} {f f' : FileContext} {found found' : List Chunk}

theorem FileContext.behind_relocated (hmode : f.mode = f'.mode)
    (hcallable : (f.callable found).map Macro.bare = (f'.callable found').map Macro.bare) :
    (f.behind found).relocated r = (f'.behind found').relocated { path := r.path } := by
  simp only [behind, LineContext.relocated, hmode, hcallable]

/-- The macros that can be called stay the same when the same chunk is found. -/
theorem FileContext.map_callable_append (hf : f.Unshadowed) (hf' : f'.Unshadowed)
    (hcallable : (f.callable found).map Macro.bare = (f'.callable found').map Macro.bare)
    {new new' : List Chunk}
    (hnew : new.map (Chunk.relocated r) = new'.map (Chunk.relocated { path := r.path })) :
    (f.callable (found ++ new)).map Macro.bare =
      (f'.callable (found' ++ new')).map Macro.bare := by
  rw [callable_append hf, callable_append hf', List.map_append, List.map_append, hcallable,
    map_bare_definitions hnew]

theorem PhysicalLine.entry_behind (hmode : f.mode = f'.mode)
    (hcallable : (f.callable found).map Macro.bare = (f'.callable found').map Macro.bare)
    (l : PhysicalLine) :
    (l.entry (f.behind found)).map (Chunk.relocated r) =
      ((l.relocated r).entry (f'.behind found')).map (Chunk.relocated { path := r.path }) := by
  rw [← entry_relocated, ← entry_relocated, relocated_path,
    FileContext.behind_relocated hmode hcallable]

namespace Outline

theorem definition?_behind (hmode : f.mode = f'.mode)
    (hcallable : (f.callable found).map Macro.bare = (f'.callable found').map Macro.bare)
    (h : PhysicalLine) (body : Outline) :
    (definition? (f.behind found) h body).map (Chunk.relocated r) =
      (definition? (f'.behind found') (h.relocated r) (body.relocated r)).map
        (Chunk.relocated { path := r.path }) := by
  rw [← definition?_relocated, ← definition?_relocated, relocated_path,
    PhysicalLine.relocated_path, FileContext.behind_relocated hmode hcallable]

/-- The top-level chunks of moved lines are the moved chunks, as long as the lines see
macros with the same names and parameters when the first of them is read. -/
theorem chunksBehind_relocated (hf : f.Unshadowed) (hf' : f'.Unshadowed)
    (hmode : f.mode = f'.mode) (o : Outline)
    (hcallable : (f.callable found).map Macro.bare = (f'.callable found').map Macro.bare) :
    ∃ new new', o.chunksBehind f found = found ++ new ∧
      (o.relocated r).chunksBehind f' found' = found' ++ new' ∧
      new.map (Chunk.relocated r) = new'.map (Chunk.relocated { path := r.path }) := by
  -- A chunk that is found on both sides leaves the same macros to the lines behind it.
  induction o generalizing found found' with
  | nil => exact ⟨[], [], (List.append_nil _).symm, (List.append_nil _).symm, rfl⟩
  | line l next ih =>
    have hfirst := map_toList (PhysicalLine.entry_behind (r := r) hmode hcallable l)
    obtain ⟨new, new', hnew, hnew', hsame⟩ :=
      ih (FileContext.map_callable_append hf hf' hcallable hfirst)
    refine ⟨(l.entry (f.behind found)).toList ++ new,
      ((l.relocated r).entry (f'.behind found')).toList ++ new', ?_, ?_, ?_⟩
    · rw [chunksBehind, hnew, List.append_assoc]
    · rw [relocated, chunksBehind, hnew', List.append_assoc]
    · rw [List.map_append, List.map_append, hfirst, hsame]
  | definition h body ended next _ ih =>
    have hfirst := map_toList (definition?_behind (r := r) hmode hcallable h body)
    obtain ⟨new, new', hnew, hnew', hsame⟩ :=
      ih (FileContext.map_callable_append hf hf' hcallable hfirst)
    refine ⟨(definition? (f.behind found) h body).toList ++ new,
      (definition? (f'.behind found') (h.relocated r) (body.relocated r)).toList ++ new',
      ?_, ?_, ?_⟩
    · rw [chunksBehind, hnew, List.append_assoc]
    · rw [relocated, chunksBehind, hnew', List.append_assoc]
    · rw [List.map_append, List.map_append, hfirst, hsame]

end Outline

end Behind

end AsmCatalog
