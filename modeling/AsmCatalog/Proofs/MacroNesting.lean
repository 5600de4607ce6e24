/-
The nesting of macro definitions is that of a stack machine.

The import nests definitions by calling itself.  The tree that comes of it is compared
here with the stack machine: its macros are the spans that the machine has closed, and
every entry of a body stands for a line that was reached when this macro was on top.

Main definitions:
* `NestedMacro`, `nestedMacro?`, `Span.nestedMacro` — a macro in a tree and on the stack;
* `ownership?`, `topLine?` — where a line should stand in a tree;
* `Catalog.NestedBy` — the macros of a file are those of a machine.

Main statements:
* `Outline.Makes.nestedMacros_eq`, `Outline.Makes.owned_eq` — the tree has the macros and
  the body entries of the outline;
* `Catalog.nestedBy_ofLines` — the macros of an import are those of the machine.
-/
import AsmCatalog.Proofs.FixedSource
import AsmCatalog.Proofs.StackMachine

namespace AsmCatalog

/-! ### The tree follows the outline -/

/-- A macro as it stands in a tree: its line, the offset behind the last line that it
covers, and the line of the macro around it. -/
structure NestedMacro where
  line : Int
  stop : Nat
  around : Option Int
deriving DecidableEq

/-- A chunk of a tree as a nested macro, if it is one. -/
def nestedMacro? (node : Chunk × Option Chunk) : Option NestedMacro :=
  if node.1.kind = .macroDef then
    some ⟨node.1.line, node.1.stop, node.2.map Chunk.line⟩
  else none

/-- How a span should stand in a tree. -/
def Span.nestedMacro (s : Span) : NestedMacro :=
  ⟨s.header.number, s.last.stop, s.around.map (·.number)⟩

/-- How a line inside a macro should stand in a tree: as a body entry of the macro that
was on top, which is empty if the line is blank. -/
def ownership? : PhysicalLine × Option PhysicalLine → Option Ownership
  | (_, none) => none
  | (l, some h) => some ⟨l.number, h.number, if l.isBlank then none else some l.number⟩

/-- The number of a line that should begin a top-level chunk. -/
def topLine? : PhysicalLine × Option PhysicalLine → Option Int
  | (l, none) => if l.isBlank then none else some l.number
  | (_, some _) => none

namespace Outline.Makes

variable {f : FileContext} {o : Outline} {entries : List (Option Chunk)} {bytes : Bytes}
  {position : Nat} {number : Int}

/-- The macros inside the entries of an outline are those of the outline. -/
theorem nestedMacros_eq (h : o.Makes f entries)
    (hlines : LaidOut bytes position number o.lines) (c : Option Chunk)
    (g : Option PhysicalLine) (hc : c.map Chunk.line = g.map (·.number)) :
    ((present entries).flatMap (·.nodes c)).filterMap nestedMacro? =
      (o.spans g).map Span.nestedMacro := by
  induction h generalizing position number c g with
  | nil => rfl
  | @line l next later found hkind _ ih =>
    obtain ⟨-, -, hrest⟩ := hlines.first
    have hnext := ih hrest c g hc
    rcases PhysicalLine.entry_cases hkind (f.behind found) with
      ⟨-, hentry⟩ | ⟨-, d, hentry, hbody⟩
    · rw [hentry]
      exact hnext
    · obtain ⟨-, -, -, hdkind⟩ := PhysicalLine.place_of_entry hkind hentry
      have hnone : nestedMacro? (d, c) = none := if_neg (by rw [hdkind]; exact hkind)
      rw [hentry, present_some, List.flatMap_cons, Chunk.nodes_of_body_nil hbody,
        List.filterMap_append, List.filterMap_cons, hnone]
      exact hnext
  | @definition h body next ended header inner later found hkind hheader _ _ ihb ihn =>
    obtain ⟨-, -, hrest⟩ := hlines.first
    obtain ⟨hinside, hbehind⟩ := laidOut_append.mp hrest
    have hself : nestedMacro? (h.definition (f.behind found) header inner
        (extent body.lines), c) =
        some (Span.nestedMacro ⟨h, body.lines.getLastD h, g⟩) := by
      rw [nestedMacro?, Span.nestedMacro, hinside.stop_getLastD]
      simp [hc]
    rw [present_some, List.flatMap_cons, Chunk.nodes_eq, PhysicalLine.definition_body,
      List.filterMap_append, List.filterMap_append, ihb hinside _ (some h) rfl,
      ihn hbehind c g hc, List.filterMap_cons, hself]
    simp [Outline.spans]

/-- The chunk of a line that begins no definition has the line's number, and nothing
belongs to it. -/
theorem owned_entry {l : PhysicalLine} (hkind : l.kind ≠ .macroDef) (x : LineContext) :
    (l.entry x).map Chunk.line = (if l.isBlank then none else some l.number) ∧
      ((l.entry x).map Chunk.owned).getD [] = [] := by
  rcases PhysicalLine.entry_cases hkind x with ⟨hblank, hentry⟩ | ⟨hblank, c, hentry, hbody⟩
  · rw [hentry, if_pos hblank]
    exact ⟨rfl, rfl⟩
  · obtain ⟨-, -, hline, -⟩ := PhysicalLine.place_of_entry hkind hentry
    rw [hentry, if_neg (by simp [hblank]), Option.map_some, Option.map_some, hline]
    exact ⟨rfl, Chunk.owned_of_body_nil hbody⟩

/-- The body entries inside the entries of an outline stand where its lines do. -/
theorem ownedFrom_eq (h : o.Makes f entries)
    (hlines : LaidOut bytes position number o.lines) (g : PhysicalLine) :
    ownedFrom number g.number entries = (o.owners (some g)).filterMap ownership? := by
  induction h generalizing position number g with
  | nil => rfl
  | @line l next later found hkind _ ih =>
    obtain ⟨-, rfl, hrest⟩ := hlines.first
    obtain ⟨hline, howned⟩ := owned_entry hkind (f.behind found)
    rw [ownedFrom_cons, hline, howned, PhysicalLine.entryLines_entry hkind]
    exact congrArg _ (ih hrest g)
  | @definition h body next ended header inner later found hkind hheader hbody _ ihb ihn =>
    obtain ⟨-, rfl, hrest⟩ := hlines.first
    obtain ⟨hinside, hbehind⟩ := laidOut_append.mp hrest
    have hself : ownership? (h, some g) = some ⟨h.number, g.number, some h.number⟩ := by
      rw [ownership?, PhysicalLine.isBlank_of_header hkind]
      rfl
    rw [ownedFrom_cons, Option.map_some, Option.map_some, Option.getD_some, Chunk.owned_eq,
      PhysicalLine.definition_body, PhysicalLine.definition_line, ihb hinside h,
      hbody.entryLines_definition, ihn hbehind g, Outline.owners, List.filterMap_cons, hself,
      List.filterMap_append]

/-- The body entries inside the top-level chunks stand where the lines do. -/
theorem owned_eq (h : o.Makes f entries) (hlines : LaidOut bytes position number o.lines) :
    (present entries).flatMap Chunk.owned = (o.owners none).filterMap ownership? := by
  induction h generalizing position number with
  | nil => rfl
  | @line l next later found hkind _ ih =>
    obtain ⟨-, -, hrest⟩ := hlines.first
    obtain ⟨-, howned⟩ := owned_entry hkind (f.behind found)
    rw [flatMap_present_cons, howned]
    exact ih hrest
  | @definition h body next ended header inner later found hkind hheader hbody _ _ ihn =>
    obtain ⟨-, rfl, hrest⟩ := hlines.first
    obtain ⟨hinside, hbehind⟩ := laidOut_append.mp hrest
    rw [flatMap_present_cons, Option.map_some, Option.getD_some, Chunk.owned_eq,
      PhysicalLine.definition_body, PhysicalLine.definition_line,
      hbody.ownedFrom_eq hinside h, ihn hbehind, Outline.owners, List.filterMap_cons,
      List.filterMap_append]
    rfl

theorem filterMap_topLine? (o : Outline) (g : PhysicalLine) :
    (o.owners (some g)).filterMap topLine? = [] := by
  induction o generalizing g with
  | nil => rfl
  | line l next ih => exact ih g
  | definition h body ended next ihb ihn =>
    rw [Outline.owners, List.filterMap_cons, List.filterMap_append, ihb, ihn]
    rfl

/-- The top-level chunks begin with the lines that belong to no macro. -/
theorem map_line_eq (h : o.Makes f entries) :
    (present entries).map Chunk.line = (o.owners none).filterMap topLine? := by
  induction h with
  | nil => rfl
  | @line l next later found hkind _ ih =>
    obtain ⟨hline, -⟩ := owned_entry hkind (f.behind found)
    rw [map_present_cons, hline, ih, Outline.owners, List.filterMap_cons, topLine?]
    cases l.isBlank <;> rfl
  | @definition h body next ended header inner later found hkind _ _ _ _ ihn =>
    have hself : topLine? (h, none) = some h.number := by
      rw [topLine?, PhysicalLine.isBlank_of_header hkind]
      rfl
    rw [map_present_cons, Option.map_some, Option.toList_some, PhysicalLine.definition_line,
      ihn, Outline.owners, List.filterMap_cons, hself, List.filterMap_append,
      filterMap_topLine?]
    rfl

/-- A definition without body entries stands at the end of the source. -/
theorem stop_of_body_nil {lines : List PhysicalLine} (ho : FileOutline lines o)
    (h : o.Makes f entries) (hlines : LaidOut bytes position number lines) {c : Chunk}
    (hc : some c ∈ entries) (hkind : c.kind = .macroDef) (hbody : c.body = []) :
    c.stop = position + extent lines := by
  induction ho generalizing entries position number with
  | nil =>
    cases h
    exact absurd hc List.not_mem_nil
  | @line l rest next hl _ ih =>
    obtain ⟨rfl, -, hrest⟩ := hlines.first
    rw [extent_cons, ← Nat.add_assoc]
    cases h with
    | line found _ hlater =>
      rcases List.mem_cons.mp hc with hself | hc
      · obtain ⟨-, -, -, hck⟩ := PhysicalLine.place_of_entry hl hself.symm
        exact absurd (hck.symm.trans hkind) hl
      · exact ih hlater hrest hc
  | @definition g rest left body next ended _ hb _ ih =>
    obtain ⟨rfl, -, hrest⟩ := hlines.first
    rw [extent_cons, ← Nat.add_assoc]
    cases h with
    | definition found _ _ hinner hlater =>
      rcases List.mem_cons.mp hc with hself | hc
      · obtain rfl := Option.some.inj hself
        rw [PhysicalLine.definition_body] at hbody
        subst hbody
        -- Without entries the body has no lines, and only the end of the input leaves it so.
        cases hinner
        cases hb
        exact PhysicalLine.definition_stop ..
      · rw [← hb.lines_append] at hrest
        rw [ih hlater (laidOut_append.mp hrest).2 hc, ← hb.lines_append, extent_append,
          ← Nat.add_assoc]
        rfl

end Outline.Makes

/-! ### The macros of an import -/

namespace Catalog

/-- The nesting of the macros of a file is what a stack machine has found in its lines. -/
structure NestedBy (file : Catalog) (bytes : Bytes) (m : Machine) : Prop where
  /-- The macros at every depth are those of the machine. -/
  macros : (file.chunks.toList.flatMap (·.nodes none)).filterMap nestedMacro? =
    m.spans.map Span.nestedMacro
  /-- A body entry belongs to the macro that was on top when its first line was reached. -/
  owned : file.chunks.toList.flatMap Chunk.owned = m.owners.filterMap ownership?
  /-- A top-level chunk begins with a line that was reached when no macro was open. -/
  top : file.chunks.toList.map Chunk.line = m.owners.filterMap topLine?
  /-- A macro goes on behind its header as long as bytes are left, even if the header has
  the end keyword. -/
  header : ∀ c ∈ file.chunks.toList, c.kind = .macroDef → c.stop < bytes.length → c.body ≠ []

/-- The macros of an import are nested as by the stack machine. -/
theorem nestedBy_ofLines {settings : Import.Settings} {path : SourcePath} {source : Source}
    {start : Nat} {stopped : Bool} {file : Catalog} (hfixed : source.Fixed)
    (h : (ofSource settings path source start stopped).result = .ok file) :
    file.NestedBy source.bytes (Machine.ofLines (physicalLines source.bytes start)) := by
  obtain ⟨o, entries, ho, hmakes, hchunks⟩ := exists_makes_of_fixed hfixed h
  obtain ⟨hspans, howners⟩ := Machine.ofLines_eq ho
  have hlines : LaidOut source.bytes start 0 o.lines := by
    rw [ho.lines_eq]
    exact laidOut_linesFrom source.bytes start 0
  constructor
  · rw [hchunks, hspans]
    exact hmakes.nestedMacros_eq hlines none none rfl
  · rw [hchunks, howners]
    exact hmakes.owned_eq hlines
  · rw [hchunks, howners]
    exact hmakes.map_line_eq
  · intro c hc hkind hstop hbody
    rw [hchunks, mem_present] at hc
    have hend := hmakes.stop_of_body_nil ho (ho.lines_eq ▸ hlines) hc hkind hbody
    have hle := length_le_extent_linesFrom source.bytes start 0
    rw [physicalLines] at hend
    omega

/-- A source in which one end keyword closes two macros, for the header of the inner one
has the keyword too, and the end of the source closes a third. -/
def nestedSource : Bytes :=
  Utf8.encode
    ['a', ' ', 'm', 'a', 'c', 'r', 'o', '\n',
      'b', ' ', 'm', 'a', 'c', 'r', 'o', ' ', 'e', 'n', 'd', 'm', '\n', '\n',
      ' ', 'x', ' ', 'e', 'n', 'd', 'm', '\n',
      'c', ' ', 'm', 'a', 'c', 'r', 'o', '\n', ';', 'y']

theorem nestedBy_ofLines_nestedSource :
    ∃ file, (ofSource {} default (.ofBytes nestedSource) 0 false).result = .ok file ∧
      file.NestedBy nestedSource (Machine.ofLines (physicalLines nestedSource 0)) ∧
      (Machine.ofLines (physicalLines nestedSource 0)).spans.map Span.nestedMacro =
        [⟨1, 30, some 0⟩, ⟨0, 30, none⟩, ⟨4, 40, none⟩] := by
  obtain ⟨file, hfile⟩ := exists_ok_ofBytes default .legacy [] nestedSource 0
  exact ⟨file, hfile, nestedBy_ofLines (Source.fixed_ofBytes _) hfile, by decide +kernel⟩

end Catalog

end AsmCatalog
