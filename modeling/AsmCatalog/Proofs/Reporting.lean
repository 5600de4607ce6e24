/-
The events of an import mirror the tree.

Events are reported while the tree is being built: a chunk behind the chunks in its body,
and before it, if the input ended in that body, that it did.  Here they are read off the
finished tree instead.  Whether a body came to its end is asked of the first lines of its
entries; a nested macro may take the lines up to the end of the input, and the body around
it has its end all the same if the header of the nested one is such a line.

Main definitions:
* `endsAt` — the line with a number has the end keyword;
* `Chunk.hasEnd` — an entry of a body begins with such a line;
* `Chunk.trace` — the events of a chunk, read off the tree;
* `Catalog.Reports` — the events of an import are those of its chunks, and one for the file.

Main statements:
* `BodyOutline.events_eq`, `FileOutline.exists_trace` — what is reported on the way is what
  is read off the tree;
* `Catalog.reports_of_fixed` — every import of a fixed source reports that.
-/
import AsmCatalog.Proofs.FixedSource
import AsmCatalog.Proofs.LineCoverage

namespace AsmCatalog

/-- Whether the line with this number has the end keyword. -/
def endsAt (bytes : Bytes) (start : Nat) (number : Int) : Bool :=
  (physicalLines bytes start).any fun l => l.number = number && endsMacro l.text

theorem endsAt_number {bytes : Bytes} {start : Nat} {l : PhysicalLine}
    (hl : l ∈ physicalLines bytes start) : endsAt bytes start l.number = l.ends := by
  have hlaid : LaidOut bytes start 0 (physicalLines bytes start) := laidOut_linesFrom ..
  have hsame : ∀ l' ∈ physicalLines bytes start, l'.number = l.number → l' = l := by
    intro l' hl' hnumber
    obtain ⟨i, hi⟩ := List.mem_iff_getElem?.mp hl
    obtain ⟨j, hj⟩ := List.mem_iff_getElem?.mp hl'
    have hnumber_i := hlaid.number_of_getElem? hi
    have hnumber_j := hlaid.number_of_getElem? hj
    obtain rfl : i = j := by omega
    exact Option.some.inj (hj.symm.trans hi)
  rw [Bool.eq_iff_iff, endsAt, List.any_eq_true]
  constructor
  · rintro ⟨l', hl', hends⟩
    obtain ⟨hnumber, hends⟩ := Bool.and_eq_true_iff.mp hends
    rw [hsame l' hl' (of_decide_eq_true hnumber)] at hends
    exact hends
  · exact fun hends => ⟨l, hl, Bool.and_eq_true_iff.mpr ⟨decide_eq_true rfl, hends⟩⟩

/-- Whether one of the entries, the first of which has this number, begins with a line that
has the end keyword. -/
def anyEnds (ends : Int → Bool) (number : Int) (entries : List (Option Chunk)) : Bool :=
  (numbered number entries).any fun e => ends e.1

theorem anyEnds_cons (ends : Int → Bool) (number : Int) (e : Option Chunk)
    (later : List (Option Chunk)) :
    anyEnds ends number (e :: later) =
      (ends number || anyEnds ends (number + entryLines e) later) := rfl

/-! ### Events of the tree -/

namespace Chunk

/-- Whether the body of a chunk came to its end before the input did. -/
def hasEnd (ends : Int → Bool) (c : Chunk) : Bool := anyEnds ends (c.line + 1) c.body

/-- The events of a chunk by itself. -/
def ownEvents (ends : Int → Bool) (c : Chunk) : List Event :=
  match c.definition? with
  | none => [c.event]
  | some m =>
    if c.hasEnd ends then [c.event] else [.unterminated m.name c.line, c.event]

/-- The events of a chunk: those of the chunks in its body in order, and then its own. -/
def trace (ends : Int → Bool) : Chunk → List Event :=
  fold fun c inner => (inner.filterMap id).flatten ++ c.ownEvents ends

theorem trace_eq (ends : Int → Bool) (c : Chunk) :
    c.trace ends = (present c.body).flatMap (trace ends) ++ c.ownEvents ends := by
  rw [trace, fold_eq, filterMap_map_fold, List.flatMap_def]

theorem definition?_of_kind {c : Chunk} (h : c.kind ≠ .macroDef) : c.definition? = none := by
  cases hm : c.definition? with
  | none => rfl
  | some m => exact absurd (kind_of_definition? hm) h

/-- An event of a chunk is that of a chunk inside it, or tells that the body of one has no
end. -/
theorem mem_trace {ends : Int → Bool} {c : Chunk} {event : Event} (h : event ∈ c.trace ends) :
    ∃ d ∈ c.all, event = d.event ∨
      ∃ m, d.definition? = some m ∧ event = .unterminated m.name d.line := by
  induction c using Chunk.induction with
  | step c ih =>
    rw [trace_eq, List.mem_append] at h
    rcases h with h | h
    · obtain ⟨d, hd, h⟩ := List.mem_flatMap.mp h
      have hd := mem_present.mp hd
      obtain ⟨a, ha, hevent⟩ := ih d hd h
      exact ⟨a, mem_all_iff.mpr (Or.inr ⟨d, hd, ha⟩), hevent⟩
    · refine ⟨c, c.mem_all_self, ?_⟩
      rw [ownEvents] at h
      split at h
      · exact Or.inl (List.mem_singleton.mp h)
      · rename_i m hm
        split at h
        · exact Or.inl (List.mem_singleton.mp h)
        · rcases List.mem_cons.mp h with h | h
          · exact Or.inr ⟨m, hm, h⟩
          · exact Or.inl (List.mem_singleton.mp h)

end Chunk

/-! ### Events of outlines -/

namespace PhysicalLine

/-- The only event of a line that begins no definition is that of its chunk. -/
theorem trace_entry {l : PhysicalLine} (hkind : l.kind ≠ .macroDef) (x : LineContext)
    (ends : Int → Bool) :
    ((l.entry x).map (Chunk.trace ends)).getD [] = ((l.entry x).map Chunk.event).toList := by
  rcases entry_cases hkind x with ⟨-, hentry⟩ | ⟨-, c, hentry, hbody⟩
  · rw [hentry]
    rfl
  · have hc : c.definition? = none := by
      apply Chunk.definition?_of_kind
      rw [(place_of_entry hkind hentry).2.2.2]
      exact hkind
    rw [hentry, Option.map_some, Option.getD_some, Chunk.trace_eq, hbody, Chunk.ownEvents, hc]
    rfl

theorem trace_definition (ends : Int → Bool) (x : LineContext) (l : PhysicalLine)
    (header : MacroHeader) (entries : List (Option Chunk)) (length : Nat) :
    (l.definition x header entries length).trace ends =
      (present entries).flatMap (Chunk.trace ends) ++
        (if anyEnds ends (l.number + 1) entries then []
          else [Event.unterminated header.name l.number]) ++
        [(l.definition x header entries length).event] := by
  rw [Chunk.trace_eq, definition_body, List.append_assoc]
  congr 1
  show (if anyEnds ends (l.number + 1) entries then _ else _) = _
  split <;> rfl

end PhysicalLine

section Outlines

variable {bytes : Bytes} {position : Nat} {number : Int} {lines left : List PhysicalLine}
  {o : Outline} {ended : Bool} {ends : Int → Bool}

/-- What is reported for a definition is read off its chunk, where `ended` tells whether its
body has an end. -/
theorem Outline.events_definition? {h : PhysicalLine} (hkind : h.kind = .macroDef)
    {x : LineContext} {body : Outline}
    (hbody : body.events x = (present (body.entries x)).flatMap (Chunk.trace ends))
    (hended : anyEnds ends (h.number + 1) (body.entries x) = ended) :
    (Outline.definition h body ended .nil).events x =
      ((Outline.definition? x h body).map (Chunk.trace ends)).getD [] := by
  obtain ⟨header, hheader⟩ := PhysicalLine.exists_header? hkind x.mode
  have hdefinition : Outline.definition? x h body =
      some (h.definition x header (body.entries x) (extent body.lines)) := by
    rw [Outline.definition?, hheader, Option.map_some]
  have htrace := PhysicalLine.trace_definition ends x h header (body.entries x)
    (extent body.lines)
  rw [hended, ← hbody] at htrace
  rw [Outline.events, hdefinition, hheader]
  exact (List.append_nil _).trans htrace.symm

/-- The lines behind a definition stand behind those of its body. -/
theorem BodyOutline.laidOut_left {body : Outline} {h : PhysicalLine}
    {rest : List PhysicalLine} (hbody : BodyOutline rest body ended left)
    (hlines : LaidOut bytes position number (h :: rest)) :
    ∃ position', LaidOut bytes position' (number + 1 + body.lines.length) left := by
  obtain ⟨-, -, hrest⟩ := hlines.first
  rw [← hbody.lines_append, laidOut_append] at hrest
  exact ⟨_, hrest.2⟩

/-- The events of a body are those of its chunks, and it has an end if one of its entries
begins with a line that has the end keyword. -/
theorem BodyOutline.events_eq (h : BodyOutline lines o ended left)
    (hlines : LaidOut bytes position number lines)
    (hends : ∀ l ∈ lines, ends l.number = l.ends) (f : FileContext) (found : List Chunk) :
    o.events (f.behind found) =
        (present (o.entries (f.behind found))).flatMap (Chunk.trace ends) ∧
      anyEnds ends number (o.entries (f.behind found)) = ended := by
  -- Both are needed at once: the warning of a nested definition asks whether its body has an
  -- end, and the first line of its own entry is one of those that end the body around it.
  induction h generalizing position number with
  | nil => exact ⟨rfl, rfl⟩
  | lastLine hkind hlast =>
    obtain ⟨-, rfl, -⟩ := hlines.first
    refine ⟨?_, ?_⟩
    · rw [Outline.entries_line, flatMap_present_cons, PhysicalLine.trace_entry hkind]
      rfl
    · rw [Outline.entries_line, anyEnds_cons, hends _ List.mem_cons_self, hlast, Bool.true_or]
  | line hkind hlast _ ih =>
    obtain ⟨-, rfl, hrest⟩ := hlines.first
    obtain ⟨hevents, hended⟩ := ih hrest fun l hl => hends l (List.mem_cons_of_mem _ hl)
    refine ⟨?_, ?_⟩
    · rw [Outline.entries_line, flatMap_present_cons, PhysicalLine.trace_entry hkind, ← hevents]
      rfl
    · rw [Outline.entries_line, anyEnds_cons, hends _ List.mem_cons_self, hlast, Bool.false_or,
        PhysicalLine.entryLines_entry hkind]
      exact hended
  | lastDefinition hkind hlast hbody ih =>
    obtain ⟨-, rfl, hrest⟩ := hlines.first
    obtain ⟨hevents, hended⟩ := ih hrest fun l hl => hends l (List.mem_cons_of_mem _ hl)
    refine ⟨?_, ?_⟩
    · rw [Outline.entries_definition, flatMap_present_cons,
        Outline.events_definition? hkind hevents hended]
      exact (List.append_nil _).symm
    · -- The header itself is the line with the end keyword.
      rw [Outline.entries_definition, anyEnds_cons, hends _ List.mem_cons_self, hlast,
        Bool.true_or]
  | @definition h rest between left body next ended ended' hkind hlast hbody _ ihb ihn =>
    have hleft := hbody.laidOut_left hlines
    obtain ⟨-, rfl, hrest⟩ := hlines.first
    have hinner : ∀ l ∈ rest, ends l.number = l.ends :=
      fun l hl => hends l (List.mem_cons_of_mem _ hl)
    have houter : ∀ l ∈ between, ends l.number = l.ends := fun l hl =>
      hinner l (hbody.lines_append ▸ List.mem_append_right _ hl)
    obtain ⟨hevents, hended⟩ := ihb hrest hinner
    obtain ⟨position', hleft⟩ := hleft
    obtain ⟨hevents', hended'⟩ := ihn hleft houter
    refine ⟨?_, ?_⟩
    · rw [Outline.entries_definition, flatMap_present_cons, Outline.events_definition, hevents',
        Outline.events_definition? hkind hevents hended]
    · obtain ⟨header, hheader⟩ := PhysicalLine.exists_header? hkind (f.behind found).mode
      have hlength := (Outline.makes_entries hbody.sound f found).entryLines_definition
        (f.behind found) h header (extent body.lines) h.number
      rw [Outline.entries_definition, anyEnds_cons, hends _ List.mem_cons_self, hlast,
        Bool.false_or, Outline.definition?, hheader, Option.map_some, hlength]
      exact hended'

/-- The events of a file are those of its top-level chunks. -/
theorem FileOutline.exists_trace (h : FileOutline lines o)
    (hlines : LaidOut bytes position number lines)
    (hends : ∀ l ∈ lines, ends l.number = l.ends) (f : FileContext) (found : List Chunk) :
    ∃ new, o.chunksBehind f found = found ++ new ∧
      o.eventsBehind f found = new.flatMap (Chunk.trace ends) := by
  induction h generalizing position number found with
  | nil => exact ⟨[], (List.append_nil _).symm, rfl⟩
  | @line l rest next hkind _ ih =>
    obtain ⟨-, -, hrest⟩ := hlines.first
    obtain ⟨new, hchunks, hevents⟩ := ih hrest
      (fun l hl => hends l (List.mem_cons_of_mem _ hl))
      (found ++ (l.entry (f.behind found)).toList)
    refine ⟨(l.entry (f.behind found)).toList ++ new, ?_, ?_⟩
    · rw [Outline.chunksBehind, hchunks, List.append_assoc]
    · rw [Outline.eventsBehind, hevents, List.flatMap_append, Outline.events, Outline.events,
        List.append_nil, ← PhysicalLine.trace_entry hkind _ ends]
      cases l.entry (f.behind found) <;> simp
  | @definition h rest left body next ended hkind hbody _ ih =>
    have hleft := hbody.laidOut_left hlines
    obtain ⟨-, rfl, hrest⟩ := hlines.first
    have hinner : ∀ l ∈ rest, ends l.number = l.ends :=
      fun l hl => hends l (List.mem_cons_of_mem _ hl)
    have houter : ∀ l ∈ left, ends l.number = l.ends := fun l hl =>
      hinner l (hbody.lines_append ▸ List.mem_append_right _ hl)
    obtain ⟨hevents, hended⟩ := hbody.events_eq hrest hinner f found
    obtain ⟨position', hleft⟩ := hleft
    obtain ⟨new, hchunks, hevents'⟩ := ih hleft houter
      (found ++ (Outline.definition? (f.behind found) h body).toList)
    refine ⟨(Outline.definition? (f.behind found) h body).toList ++ new, ?_, ?_⟩
    · rw [Outline.chunksBehind, hchunks, List.append_assoc]
    · rw [Outline.eventsBehind, hevents', List.flatMap_append,
        Outline.events_definition? hkind hevents hended]
      cases Outline.definition? (f.behind found) h body <;> simp

end Outlines

/-! ### Files -/

namespace Catalog

/-- The events of an import of these bytes are read off the file. -/
structure Reports (file : Catalog) (bytes : Bytes) (start : Nat) (events : List Event) :
    Prop where
  /-- Every top-level chunk is reported in order with what is inside it, and the file
  behind them. -/
  trace : events = file.chunks.toList.flatMap (Chunk.trace (endsAt bytes start)) ++
    [.imported file.path file.chunks.size file.constants.length]
  /-- A chunk is reported in detail, a body without an end is warned of, and the file is
  reported for debugging. -/
  levels : ∀ event ∈ events,
    (event.level = .trace ∧ event.message = "chunk" ∧
      ∃ c ∈ file.allChunks, event = .chunk c.line c.position c.length c.kind) ∨
    (event.level = .warn ∧ event.message = "macro body runs to end of input" ∧
      ∃ c ∈ file.allChunks, ∃ m, c.definition? = some m ∧
        event = .unterminated m.name c.line) ∨
    (event.level = .debug ∧ event.message = "imported" ∧
      event = .imported file.path file.chunks.size file.constants.length)

/-- Every import of a fixed source reports what is read off its file. -/
theorem reports_of_fixed {settings : Import.Settings} {path : SourcePath} {source : Source}
    {start : Nat} {stopped : Bool} {file : Catalog} (hfixed : source.Fixed)
    (h : (ofSource settings path source start stopped).result = .ok file) :
    file.Reports source.bytes start (ofSource settings path source start stopped).events := by
  obtain ⟨o, ho⟩ := exists_fileOutline (physicalLines source.bytes start)
  obtain ⟨file', hfile', hpath, hchunks, -⟩ :=
    ofSource_ofBytes (settings.context path) source.bytes start ho
  have hsame := (ofSource_of_fixed hfixed h).symm.trans hfile'
  obtain ⟨hresult, hevents, -⟩ := Import.Outcome.mk.inj hsame
  obtain rfl : file = file' := Except.ok.inj hresult
  obtain ⟨new, hnew, htrace⟩ := ho.exists_trace (laidOut_linesFrom source.bytes start 0)
    (fun _ hl => endsAt_number hl) (settings.context path) []
  have hwhole : (ofSource settings path source start stopped).events =
      file.chunks.toList.flatMap (Chunk.trace (endsAt source.bytes start)) ++
        [.imported file.path file.chunks.size file.constants.length] := by
    rw [hevents, htrace, hchunks, hnew, hpath]
    rfl
  refine ⟨hwhole, fun event hevent => ?_⟩
  rw [hwhole, List.mem_append, List.mem_singleton] at hevent
  rcases hevent with hevent | hevent
  · obtain ⟨c, hc, hevent⟩ := List.mem_flatMap.mp hevent
    obtain ⟨d, hd, rfl | ⟨m, hm, rfl⟩⟩ := Chunk.mem_trace hevent
    · exact Or.inl ⟨rfl, rfl, d, List.mem_flatMap.mpr ⟨c, hc, hd⟩, rfl⟩
    · exact Or.inr (Or.inl ⟨rfl, rfl, d, List.mem_flatMap.mpr ⟨c, hc, hd⟩, m, hm, rfl⟩)
  · rw [hevent]
    exact Or.inr (Or.inr ⟨rfl, rfl, rfl⟩)

/-- A macro whose end is the header of a nested one, which has none. -/
def reportedSource : Bytes :=
  Utf8.encode
    [';', '\n', 'm', ' ', 'm', 'a', 'c', 'r', 'o', '\n', '\n', 'x', 'e', 'n', 'd', 'm', ' ', 'm',
      'a', 'c', 'r', 'o', '\n', 'a', ' ', 'e', 'q', 'u', ' ', '1', '\n']

theorem reports_of_fixed_reportedSource :
    ∃ file, (ofSource {} default (.ofBytes reportedSource) 0 false).result = .ok file ∧
      file.Reports reportedSource 0 (ofSource {} default (.ofBytes reportedSource) 0 false).events ∧
      (ofSource {} default (.ofBytes reportedSource) 0 false).events =
        [.chunk 0 0 1 .comment, .chunk 4 23 8 .statement,
          .unterminated ['x', 'e', 'n', 'd', 'm'] 3, .chunk 3 11 20 .macroDef,
          .chunk 1 2 29 .macroDef, .imported default 2 1] := by
  obtain ⟨file, hfile⟩ := exists_ok_ofBytes default .legacy [] reportedSource 0
  refine ⟨file, hfile, ?_, by decide +kernel⟩
  exact reports_of_fixed (Source.fixed_ofBytes reportedSource) hfile

end Catalog

end AsmCatalog
