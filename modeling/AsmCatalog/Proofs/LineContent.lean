/-
What lines and outlines are catalogued as.

A line by itself makes a chunk, an empty entry or a constant; a definition makes a
chunk of its header and of what its body makes.  Which macros can be called from a
line is given from outside, for it changes from one top-level chunk to the next.

Main definitions:
* `FileContext`, `LineContext` — what the lines of a file are read with;
* `PhysicalLine.entry`, `PhysicalLine.constant?`, `PhysicalLine.definition` — what a
  line makes;
* `constantsOf` — the constants that lines declare;
* `Outline.entries` — what an outline makes, an entry for each line or definition;
* `Outline.events` — the events that are reported for an outline;
* `Outline.chunksBehind` — the top-level chunks of an outline;
* `Outline.Makes` — the entries that an outline may make, whatever its lines can see.

Main statements:
* `PhysicalLine.entry_cases` — a line makes nothing exactly if it is blank;
* `Outline.exists_makes` — the top-level chunks are the entries that are not empty;
* `equate?_parse` — the equate of a statement does not depend on the macros;
* `visibleMacros_eq_callable` — the macros that a line can call, in one formula.
-/
import AsmCatalog.Event
import AsmCatalog.Proofs.ChunkTree
import AsmCatalog.Proofs.HeaderKeyword
import AsmCatalog.Proofs.Outline
import AsmCatalog.Statement.Parse

namespace AsmCatalog

/-! ### What lines are read with -/

/-- What every line of a file is read with: the path of the file, the mode, and the
includes. -/
structure FileContext where
  path : SourcePath
  mode : Mode
  includes : List Catalog

/-- What one line is read with: the path, the mode, and the macros that can be called. -/
structure LineContext where
  path : SourcePath
  mode : Mode
  candidates : List (Macro Chunk)

namespace FileContext

/-- The macros that can be called behind some top-level chunks: those of the includes,
one file for each path, and then those of the file itself unless it is an include. -/
def callable (f : FileContext) (found : List Chunk) : List (Macro Chunk) :=
  visibleMacros (firstOfPaths [] f.includes) ++
    if f.includes.any (·.path.same f.path) then [] else found.filterMap Chunk.definition?

/-- What a line behind some top-level chunks is read with. -/
def behind (f : FileContext) (found : List Chunk) : LineContext :=
  ⟨f.path, f.mode, f.callable found⟩

end FileContext

theorem firstOfPaths_concat (seen : List SourcePath) (files : List Catalog) (f : Catalog) :
    firstOfPaths seen (files ++ [f]) =
      firstOfPaths seen files ++
        if seen.any (·.same f.path) || files.any (·.path.same f.path) then [] else [f] := by
  induction files generalizing seen with
  | nil => simp [firstOfPaths]
  | cons g rest ih =>
    rw [List.cons_append, firstOfPaths, firstOfPaths]
    by_cases hg : seen.any (·.same g.path) = true
    · rw [if_pos hg, if_pos hg, ih, List.any_cons]
      obtain ⟨p, hp, hpg⟩ := List.any_eq_true.mp hg
      -- A file whose path was seen before says nothing new about the path of `f`.
      have hor : (seen.any (·.same f.path) || rest.any (·.path.same f.path)) =
          (seen.any (·.same f.path) ||
            (g.path.same f.path || rest.any (·.path.same f.path))) := by
        cases hgf : g.path.same f.path with
        | false => rw [Bool.false_or]
        | true =>
          have hpf : p.same f.path = true := by
            simp only [SourcePath.same, beq_iff_eq] at hpg hgf ⊢
            rw [hpg, hgf]
          rw [List.any_eq_true.mpr ⟨p, hp, hpf⟩]
          rfl
      rw [hor]
    · rw [if_neg hg, if_neg hg, ih, List.any_cons, List.any_cons, List.cons_append,
        ← Bool.or_assoc, Bool.or_comm (g.path.same f.path)]

/-- The macros that are visible to a catalog that grows are those of this formula. -/
theorem visibleMacros_eq_callable (f : FileContext) {file : Catalog} (h : file.path = f.path) :
    visibleMacros (visibleCatalogs f.includes file) = f.callable file.chunks.toList := by
  rw [visibleCatalogs, firstOfPaths_concat, FileContext.callable, h, visibleMacros,
    List.flatMap_append, ← visibleMacros, List.any_nil, Bool.false_or]
  congr 1
  split
  · rfl
  · rw [← ChunkSet.filterMap_eq, List.flatMap_singleton]
    rfl

/-! ### What lines make -/

namespace PhysicalLine

/-- The chunk of a line that begins no definition, unless the line is blank. -/
def entry (x : LineContext) (l : PhysicalLine) : Option Chunk :=
  match l.kind with
  | .comment =>
    some ⟨x.path, l.position, l.number, l.contentLength, .comment (commentText l.text)⟩
  | _ =>
    if l.isBlank then none
    else
      some ⟨x.path, l.position, l.number, l.bytes.length,
        .statement (.parse x.mode x.candidates l.text)⟩

/-- The equate that a line is, whichever macros can be called. -/
def equate? (mode : Mode) (l : PhysicalLine) : Option Equate :=
  let code := (dotLabel (withoutComment l.text)).2
  if l.kind = .statement ∧ Text.isBlank code = false then Equate.parse? mode code else none

/-- The constant that a line declares. -/
def constant? (path : SourcePath) (mode : Mode) (l : PhysicalLine) : Option Constant :=
  (l.equate? mode).map fun e => ⟨e.name, e.value, path, l.position, l.bytes.length, l.number⟩

/-- The macro header that a line is. -/
def header? (mode : Mode) (l : PhysicalLine) : Option MacroHeader :=
  MacroHeader.parse? mode (Text.normalize l.text)

/-- The definition that has a line as its header, with the entries and the stored length
of its body. -/
def definition (x : LineContext) (l : PhysicalLine) (header : MacroHeader)
    (entries : List (Option Chunk)) (length : Nat) : Chunk :=
  ⟨x.path, l.position, l.number, l.bytes.length + length,
    .macroDef ⟨header.name, header.parameters, entries, true⟩⟩

/-- The invalid definition that a malformed header makes. -/
def malformed (x : LineContext) (l : PhysicalLine) : Chunk :=
  ⟨x.path, l.position, l.number, l.bytes.length,
    .macroDef ⟨MacroHeader.nameOf (Text.normalize l.text), [], [], false⟩⟩

@[simp] theorem definition_body (x : LineContext) (l : PhysicalLine) (header : MacroHeader)
    (entries : List (Option Chunk)) (length : Nat) :
    (l.definition x header entries length).body = entries := rfl

@[simp] theorem definition_line (x : LineContext) (l : PhysicalLine) (header : MacroHeader)
    (entries : List (Option Chunk)) (length : Nat) :
    (l.definition x header entries length).line = l.number := rfl

@[simp] theorem definition_position (x : LineContext) (l : PhysicalLine)
    (header : MacroHeader) (entries : List (Option Chunk)) (length : Nat) :
    (l.definition x header entries length).position = l.position := rfl

@[simp] theorem definition_kind (x : LineContext) (l : PhysicalLine) (header : MacroHeader)
    (entries : List (Option Chunk)) (length : Nat) :
    (l.definition x header entries length).kind = .macroDef := rfl

@[simp] theorem definition_stop (x : LineContext) (l : PhysicalLine) (header : MacroHeader)
    (entries : List (Option Chunk)) (length : Nat) :
    (l.definition x header entries length).stop = l.stop + length :=
  (Nat.add_assoc ..).symm

/-- A line that begins a definition is a header, in either mode. -/
theorem exists_header? {l : PhysicalLine} (h : l.kind = .macroDef) (mode : Mode) :
    ∃ header, l.header? mode = some header :=
  Option.isSome_iff_exists.mp (MacroHeader.parse?_isSome mode h)

theorem kind_cases {l : PhysicalLine} (h : l.kind ≠ .macroDef) :
    l.kind = .comment ∨ l.kind = .statement := by
  cases hk : l.kind with
  | comment => exact Or.inl rfl
  | macroDef => exact absurd hk h
  | statement => exact Or.inr rfl

theorem entry_comment {l : PhysicalLine} (h : l.kind = .comment) (x : LineContext) :
    l.entry x =
      some ⟨x.path, l.position, l.number, l.contentLength, .comment (commentText l.text)⟩ := by
  rw [entry, h]

theorem entry_statement {l : PhysicalLine} (h : l.kind = .statement) (x : LineContext) :
    l.entry x =
      if l.isBlank then none
      else some ⟨x.path, l.position, l.number, l.bytes.length,
        .statement (.parse x.mode x.candidates l.text)⟩ := by
  rw [entry, h]

theorem place_of_entry {x : LineContext} {l : PhysicalLine} {c : Chunk}
    (hk : l.kind ≠ .macroDef) (h : l.entry x = some c) :
    c.path = x.path ∧ c.position = l.position ∧ c.line = l.number ∧ c.kind = l.kind := by
  rcases kind_cases hk with hk | hk
  · rw [entry_comment hk] at h
    obtain rfl := Option.some.inj h
    exact ⟨rfl, rfl, rfl, hk.symm⟩
  · rw [entry_statement hk] at h
    split at h
    · exact absurd h (by simp)
    · obtain rfl := Option.some.inj h
      exact ⟨rfl, rfl, rfl, hk.symm⟩

/-- A blank line is a statement with nothing on it. -/
theorem kind_of_isBlank {l : PhysicalLine} (h : l.isBlank = true) : l.kind = .statement := by
  have hnothing : Text.trimStart (Text.expandTabs l.text) = [] := by
    have hnone : Text.trimStart l.text = [] :=
      List.dropWhile_eq_nil_iff.mpr fun c hc => List.all_eq_true.mp h c hc
    rw [Text.trimStart_expandTabs, hnone, Text.expandTabs_nil]
  rw [kind, ChunkKind.ofHeader, hnothing]
  decide

theorem isBlank_of_header {l : PhysicalLine} (h : l.kind = .macroDef) : l.isBlank = false := by
  rw [← Bool.not_eq_true]
  intro hblank
  rw [kind_of_isBlank hblank] at h
  exact absurd h (by decide)

/-- A line that begins no definition makes nothing if it is blank, and otherwise one chunk
without a body. -/
theorem entry_cases {l : PhysicalLine} (hkind : l.kind ≠ .macroDef) (x : LineContext) :
    (l.isBlank = true ∧ l.entry x = none) ∨
      (l.isBlank = false ∧ ∃ c, l.entry x = some c ∧ c.body = []) := by
  cases hblank : l.isBlank with
  | true =>
    rw [entry_statement (kind_of_isBlank hblank), if_pos hblank]
    exact Or.inl ⟨rfl, rfl⟩
  | false =>
    rcases kind_cases hkind with hk | hk
    · rw [entry_comment hk]
      exact Or.inr ⟨rfl, _, rfl, rfl⟩
    · rw [entry_statement hk, if_neg (by simp [hblank])]
      exact Or.inr ⟨rfl, _, rfl, rfl⟩

theorem entryLines_entry {l : PhysicalLine} (hkind : l.kind ≠ .macroDef) (x : LineContext) :
    entryLines (l.entry x) = 1 := by
  rcases entry_cases hkind x with ⟨-, hentry⟩ | ⟨-, c, hentry, hbody⟩
  · rw [hentry]
    rfl
  · rw [hentry]
    exact Chunk.lineCount_of_body_nil hbody

/-- The only chunk that such a line makes is its own. -/
theorem mem_all_entry {l : PhysicalLine} (hkind : l.kind ≠ .macroDef) {x : LineContext}
    {c : Chunk} {later : List (Option Chunk)} :
    c ∈ (present (l.entry x :: later)).flatMap Chunk.all ↔
      l.entry x = some c ∨ c ∈ (present later).flatMap Chunk.all := by
  rw [flatMap_present_cons, List.mem_append]
  rcases entry_cases hkind x with ⟨-, hentry⟩ | ⟨-, d, hentry, hbody⟩
  · simp [hentry]
  · simp [hentry, Chunk.all_of_body_nil hbody, eq_comm]

/-- The chunks of a definition are its own and those inside it. -/
theorem mem_all_definition {x : LineContext} {l : PhysicalLine} {header : MacroHeader}
    {entries later : List (Option Chunk)} {length : Nat} {c : Chunk} :
    c ∈ (present (some (l.definition x header entries length) :: later)).flatMap Chunk.all ↔
      c = l.definition x header entries length ∨ c ∈ (present entries).flatMap Chunk.all ∨
        c ∈ (present later).flatMap Chunk.all := by
  rw [flatMap_present_cons, List.mem_append, Option.map_some, Option.getD_some, Chunk.all_eq,
    List.mem_cons, definition_body, or_assoc]

theorem constant?_eq_none {l : PhysicalLine} (h : l.kind ≠ .statement) (path : SourcePath)
    (mode : Mode) : l.constant? path mode = none := by
  rw [constant?, equate?, if_neg (fun hc => h hc.1)]
  rfl

theorem constant?_position {l : PhysicalLine} {path : SourcePath} {mode : Mode} {c : Constant}
    (h : l.constant? path mode = some c) : c.position = l.position := by
  obtain ⟨e, -, rfl⟩ := Option.map_eq_some_iff.mp h
  rfl

end PhysicalLine

/-- The constants that lines declare, in order. -/
def constantsOf (path : SourcePath) (mode : Mode) (lines : List PhysicalLine) : List Constant :=
  lines.filterMap (·.constant? path mode)

theorem constantsOf_cons (path : SourcePath) (mode : Mode) (l : PhysicalLine)
    (rest : List PhysicalLine) :
    constantsOf path mode (l :: rest) =
      (l.constant? path mode).toList ++ constantsOf path mode rest := by
  rw [constantsOf, List.filterMap_cons]
  cases l.constant? path mode <;> rfl

theorem constantsOf_header {l : PhysicalLine} (h : l.kind = .macroDef) (path : SourcePath)
    (mode : Mode) (rest : List PhysicalLine) :
    constantsOf path mode (l :: rest) = constantsOf path mode rest := by
  rw [constantsOf_cons, PhysicalLine.constant?_eq_none (by simp [h])]
  rfl

@[simp] theorem constantsOf_append (path : SourcePath) (mode : Mode)
    (a b : List PhysicalLine) :
    constantsOf path mode (a ++ b) = constantsOf path mode a ++ constantsOf path mode b :=
  List.filterMap_append

/-- The equate of a statement does not depend on the macros that can be called. -/
theorem equate?_parse {l : PhysicalLine} (h : l.kind = .statement) (mode : Mode)
    (candidates : List (Macro Chunk)) :
    (Statement.parse mode candidates l.text).equate? = l.equate? mode := by
  rw [Statement.equate?, PhysicalLine.equate?, Statement.parse]
  simp only [Form.parse?, h, true_and]
  by_cases hb : Text.isBlank (dotLabel (withoutComment l.text)).2 = true
  · rw [if_pos hb, if_neg (by simp [hb])]
    rfl
  · rw [if_neg hb, if_pos (by simpa using hb)]
    cases Equate.parse? mode (dotLabel (withoutComment l.text)).2 with
    | some e => rfl
    | none =>
      cases Invocation.parse? mode candidates (dotLabel (withoutComment l.text)).2 <;> rfl

/-! ### What outlines make -/

/-- The event that a chunk is reported with. -/
def Chunk.event (c : Chunk) : Event := .chunk c.line c.position c.length c.kind

namespace Outline

/-- What an outline makes: an entry for each line and each definition. -/
def entries (x : LineContext) : Outline → List (Option Chunk)
  | nil => []
  | line l next => l.entry x :: next.entries x
  | definition h body _ next =>
    (h.header? x.mode).map (h.definition x · (body.entries x) (extent body.lines)) ::
      next.entries x

/-- The chunk of a definition. -/
def definition? (x : LineContext) (h : PhysicalLine) (body : Outline) : Option Chunk :=
  (h.header? x.mode).map (h.definition x · (body.entries x) (extent body.lines))

@[simp] theorem entries_nil (x : LineContext) : nil.entries x = [] := rfl

@[simp] theorem entries_line (x : LineContext) (l : PhysicalLine) (next : Outline) :
    (line l next).entries x = l.entry x :: next.entries x := rfl

@[simp] theorem entries_definition (x : LineContext) (h : PhysicalLine) (body : Outline)
    (ended : Bool) (next : Outline) :
    (definition h body ended next).entries x = definition? x h body :: next.entries x := rfl

/-- The events of an outline: a chunk is reported behind the chunks in its body, and a
body without an end just before its definition. -/
def events (x : LineContext) : Outline → List Event
  | nil => []
  | line l next => ((l.entry x).map Chunk.event).toList ++ next.events x
  | definition h body ended next =>
    body.events x ++
      (if ended then [] else
        ((h.header? x.mode).map fun header => .unterminated header.name h.number).toList) ++
      ((definition? x h body).map Chunk.event).toList ++ next.events x

theorem place_of_definition? {x : LineContext} {h : PhysicalLine} {body : Outline}
    {c : Chunk} (hc : definition? x h body = some c) :
    c.path = x.path ∧ c.position = h.position ∧ c.line = h.number ∧ c.kind = .macroDef := by
  obtain ⟨header, -, rfl⟩ := Option.map_eq_some_iff.mp hc
  exact ⟨rfl, rfl, rfl, rfl⟩

theorem events_definition (x : LineContext) (h : PhysicalLine) (body : Outline)
    (ended : Bool) (next : Outline) :
    (definition h body ended next).events x =
      (definition h body ended nil).events x ++ next.events x := by
  simp [events]

/-- The top-level chunks of a file: those found before, and those of the outline, each
of which sees the macros before it. -/
def chunksBehind (f : FileContext) (found : List Chunk) : Outline → List Chunk
  | nil => found
  | line l next => next.chunksBehind f (found ++ (l.entry (f.behind found)).toList)
  | definition h body _ next =>
    next.chunksBehind f (found ++ (definition? (f.behind found) h body).toList)

/-- The events of the top-level chunks of a file. -/
def eventsBehind (f : FileContext) (found : List Chunk) : Outline → List Event
  | nil => []
  | line l next =>
    (line l nil).events (f.behind found) ++
      next.eventsBehind f (found ++ (l.entry (f.behind found)).toList)
  | definition h body ended next =>
    (definition h body ended nil).events (f.behind found) ++
      next.eventsBehind f (found ++ (definition? (f.behind found) h body).toList)

/-- The entries are what an outline makes of the lines of a file, each of which may see
other top-level chunks before it. -/
inductive Makes (f : FileContext) : Outline → List (Option Chunk) → Prop where
  | nil : Makes f .nil []
  | line {l : PhysicalLine} {next : Outline} {later : List (Option Chunk)}
      (found : List Chunk) (hkind : l.kind ≠ .macroDef) (hnext : Makes f next later) :
      Makes f (.line l next) (l.entry (f.behind found) :: later)
  | definition {h : PhysicalLine} {body next : Outline} {ended : Bool} {header : MacroHeader}
      {inner later : List (Option Chunk)} (found : List Chunk) (hkind : h.kind = .macroDef)
      (hheader : h.header? f.mode = some header) (hbody : Makes f body inner)
      (hnext : Makes f next later) :
      Makes f (.definition h body ended next)
        (some (h.definition (f.behind found) header inner (extent body.lines)) :: later)

theorem makes_entries {o : Outline} (h : o.Sound) (f : FileContext) (found : List Chunk) :
    o.Makes f (o.entries (f.behind found)) := by
  induction o with
  | nil => exact .nil
  | line l next ih => exact .line found h.1 (ih h.2)
  | definition h body ended next ihb ihn =>
    obtain ⟨hkind, hbody, hnext⟩ := h
    obtain ⟨header, hheader⟩ := PhysicalLine.exists_header? hkind f.mode
    have hheader' : h.header? (f.behind found).mode = some header := hheader
    rw [entries_definition, definition?, hheader', Option.map_some]
    exact .definition found hkind hheader (ihb hbody) (ihn hnext)

/-- The top-level chunks of a file are the entries that are not empty. -/
theorem exists_makes {o : Outline} (h : o.Sound) (f : FileContext) (found : List Chunk) :
    ∃ entries, o.Makes f entries ∧ o.chunksBehind f found = found ++ present entries := by
  induction o generalizing found with
  | nil => exact ⟨[], .nil, (List.append_nil _).symm⟩
  | line l next ih =>
    obtain ⟨later, hlater, hchunks⟩ := ih h.2 (found ++ (l.entry (f.behind found)).toList)
    refine ⟨_, .line found h.1 hlater, ?_⟩
    rw [chunksBehind, hchunks, List.append_assoc]
    cases l.entry (f.behind found) <;> rfl
  | definition h body ended next ihb ihn =>
    obtain ⟨hkind, hbody, hnext⟩ := h
    obtain ⟨header, hheader⟩ := PhysicalLine.exists_header? hkind f.mode
    have hheader' : h.header? (f.behind found).mode = some header := hheader
    obtain ⟨later, hlater, hchunks⟩ :=
      ihn hnext (found ++ (definition? (f.behind found) h body).toList)
    refine ⟨_, .definition found hkind hheader (makes_entries hbody f found) hlater, ?_⟩
    rw [chunksBehind, hchunks, definition?, hheader', List.append_assoc]
    rfl

namespace Makes

variable {f : FileContext} {o : Outline} {entries : List (Option Chunk)}

theorem bodyLines_eq (h : o.Makes f entries) : bodyLines entries = o.lines.length := by
  induction h with
  | nil => rfl
  | line found hkind _ ih =>
    rw [bodyLines, PhysicalLine.entryLines_entry hkind, ih, Outline.lines, List.length_cons,
      Nat.add_comm]
  | definition found hkind hheader _ _ ihb ihn =>
    rw [bodyLines, ihn, entryLines, Option.map_some, Option.getD_some, Chunk.lineCount_eq,
      PhysicalLine.definition_body, ihb, Outline.lines, List.length_cons, List.length_append]
    omega

/-- What stands behind a definition has a number that counts its header and its body. -/
theorem entryLines_definition (h : o.Makes f entries) (x : LineContext) (l : PhysicalLine)
    (header : MacroHeader) (length : Nat) (number : Int) :
    number + (entryLines (some (l.definition x header entries length)) : Nat) =
      number + 1 + o.lines.length := by
  rw [entryLines, Option.map_some, Option.getD_some, Chunk.lineCount_eq,
    PhysicalLine.definition_body, h.bodyLines_eq]
  omega

/-- A chunk that is no macro is the chunk of a line. -/
theorem exists_entry (h : o.Makes f entries) {c : Chunk}
    (hc : c ∈ (present entries).flatMap Chunk.all) (hkind : c.kind ≠ .macroDef) :
    ∃ l ∈ o.lines, l.kind ≠ .macroDef ∧ ∃ x, l.entry x = some c := by
  induction h with
  | nil => exact absurd hc List.not_mem_nil
  | @line l next later found hl _ ih =>
    rcases (PhysicalLine.mem_all_entry hl).mp hc with hc | hc
    · exact ⟨l, List.mem_cons_self, hl, _, hc⟩
    · obtain ⟨l', hl', hfound⟩ := ih hc
      exact ⟨l', List.mem_cons_of_mem _ hl', hfound⟩
  | @definition l body next ended header inner later found _ _ _ _ ihb ihn =>
    rcases PhysicalLine.mem_all_definition.mp hc with rfl | hc | hc
    · exact absurd rfl hkind
    · obtain ⟨l', hl', hfound⟩ := ihb hc
      exact ⟨l', List.mem_cons_of_mem _ (List.mem_append_left _ hl'), hfound⟩
    · obtain ⟨l', hl', hfound⟩ := ihn hc
      exact ⟨l', List.mem_cons_of_mem _ (List.mem_append_right _ hl'), hfound⟩

end Makes

end Outline

end AsmCatalog
