/-
A source behind another one sees what it would see with that one as an include.

Two sources are imported one behind the other, as the bytes of one file, and one after
the other, where the second has the file of the first as its last include.  If the first
is made of whole lines and none of its definitions is left open, both ways give the same
chunks and constants, those of the second moved behind the first.

Main definitions:
* `WholeLines` — bytes that break off in no line;
* `Outline.append`, `Outline.Closed` — outlines one behind the other, and outlines whose
  definitions all have their end.

Main statements:
* `physicalLines_append` — the lines of both sources are the lines of the whole;
* `FileOutline.append` — so are their outlines, if the first is closed;
* `Catalog.ofSource_append` — the import of the whole gives what both imports give.
-/
import AsmCatalog.Proofs.ByteOrderMark
import AsmCatalog.Proofs.ReliableImport
import AsmCatalog.Proofs.Relocation

namespace AsmCatalog

/-! ### Lines of two sources -/

/-- The bytes are none, or the last of them ends a line. -/
def WholeLines (bytes : Bytes) : Prop := bytes = [] ∨ bytes.getLast? = some newline

theorem WholeLines.tail {b : UInt8} {rest : Bytes} (h : WholeLines (b :: rest)) :
    WholeLines rest := by
  cases rest with
  | nil => exact Or.inl rfl
  | cons c more =>
    rcases h with h | h
    · exact absurd h (List.cons_ne_nil _ _)
    · exact Or.inr (by rwa [List.getLast?_cons_cons] at h)

/-- A line that is not over goes on in the bytes behind. -/
theorem WholeLines.ne_nil {b : UInt8} {rest : Bytes} (h : WholeLines (b :: rest))
    (hb : b ≠ newline) : rest ≠ [] := by
  rintro rfl
  rcases h with h | h
  · exact absurd h (List.cons_ne_nil _ _)
  · exact hb (by simpa using h)

theorem splitLines_ne_nil {bytes : Bytes} (h : bytes ≠ []) : splitLines bytes ≠ [] := by
  rw [splitLines_eq_cons h]
  exact List.cons_ne_nil _ _

/-- Behind whole lines the cut into lines begins anew. -/
theorem splitLines_append {a : Bytes} (ha : WholeLines a) (b : Bytes) :
    splitLines (a ++ b) = splitLines a ++ splitLines b := by
  induction a with
  | nil => rfl
  | cons c rest ih =>
    rw [List.cons_append, splitLines, splitLines, ih ha.tail]
    by_cases hc : c = newline
    · rw [if_pos hc, if_pos hc, List.cons_append]
    · obtain ⟨line, lines, hlines⟩ :=
        List.exists_cons_of_ne_nil (splitLines_ne_nil (ha.ne_nil hc))
      simp only [if_neg hc, hlines, List.cons_append]

/-- Whole lines are as many as their ends. -/
theorem length_splitLines {a : Bytes} (ha : WholeLines a) :
    (splitLines a).length = a.count newline := by
  induction a with
  | nil => rfl
  | cons c rest ih =>
    rw [splitLines]
    by_cases hc : c = newline
    · rw [if_pos hc, hc, List.count_cons_self, List.length_cons, ih ha.tail]
    · obtain ⟨line, lines, hlines⟩ :=
        List.exists_cons_of_ne_nil (splitLines_ne_nil (ha.ne_nil hc))
      rw [if_neg hc, List.count_cons_of_ne hc, ← ih ha.tail, hlines]
      rfl

theorem ne_nil_of_mem_splitLines {bytes line : Bytes} (h : line ∈ splitLines bytes) :
    line ≠ [] := by
  induction bytes generalizing line with
  | nil => exact absurd h List.not_mem_nil
  | cons b rest ih =>
    rw [splitLines] at h
    split at h
    · rcases List.mem_cons.mp h with rfl | h
      · exact List.cons_ne_nil _ _
      · exact ih h
    · cases hlines : splitLines rest with
      | nil =>
        rw [hlines] at h
        rw [List.mem_singleton.mp h]
        exact List.cons_ne_nil _ _
      | cons first more =>
        rw [hlines] at h ih
        rcases List.mem_cons.mp h with rfl | h
        · exact List.cons_ne_nil _ _
        · exact ih (List.mem_cons_of_mem _ h)

/-- The first line stands at the beginning of the bytes. -/
theorem prefix_of_head?_splitLines {bytes line : Bytes} (h : line ∈ (splitLines bytes).head?) :
    line <+: bytes := by
  obtain ⟨rest, hrest⟩ := List.head?_eq_some_iff.mp h
  rw [← flatten_splitLines bytes, hrest]
  exact ⟨rest.flatten, rfl⟩

theorem placeLines_append (position : Nat) (number : Int) (a b : List Bytes) :
    placeLines position number (a ++ b) =
      placeLines position number a ++
        placeLines (position + a.flatten.length) (number + a.length) b := by
  induction a generalizing position number with
  | nil => simp [placeLines]
  | cons line rest ih =>
    rw [List.cons_append, placeLines, placeLines, ih, List.cons_append, List.flatten_cons,
      List.length_append, List.length_cons, Nat.add_assoc, Int.add_assoc, Int.natCast_add,
      Int.natCast_one, Int.add_comm 1]

/-- Lines that are placed elsewhere are the moved lines, unless the mark is hidden from
the first. -/
theorem placeLines_relocated (r : Relocation) {position : Nat} {lines : List Bytes}
    (hmark : position ≠ 0 ∨ r.bytes = 0 ∨ ∀ line ∈ lines.head?, ¬ byteOrderMark <+: line)
    (hlines : ∀ line ∈ lines, line ≠ []) (number : Int) :
    placeLines (position + r.bytes) (number + r.lines) lines =
      (placeLines position number lines).map (PhysicalLine.relocated r) := by
  induction lines generalizing position number with
  | nil => rfl
  | cons line rest ih =>
    obtain ⟨hline, hrest⟩ := List.forall_mem_cons.mp hlines
    have htext : lineText (position + r.bytes) line = lineText position line := by
      rcases hmark with hposition | hbytes | hfirst
      · exact lineText_add hposition line r.bytes
      · rw [hbytes, Nat.add_zero]
      · exact lineText_eq_of_no_mark (hfirst line rfl) _ _
    have hbehind : position + line.length ≠ 0 := by
      have := List.length_pos_iff.mpr hline
      omega
    have hnext := ih (Or.inl hbehind) hrest (number + 1)
    rw [placeLines, placeLines, List.map_cons, ← hnext, htext]
    simp only [PhysicalLine.relocated, Nat.add_right_comm, Int.add_right_comm]

/-- The lines behind whole lines are the lines of their own bytes, moved. -/
theorem physicalLines_append {a b : Bytes} (ha : WholeLines a)
    (hmark : a ≠ [] → ¬ byteOrderMark <+: b) (path : SourcePath) :
    physicalLines (a ++ b) 0 =
      physicalLines a 0 ++
        (physicalLines b 0).map (PhysicalLine.relocated ⟨path, a.length, a.count newline⟩) := by
  have hfirst : (0 : Nat) ≠ 0 ∨ a.length = 0 ∨
      ∀ line ∈ (splitLines b).head?, ¬ byteOrderMark <+: line := by
    by_cases hnil : a = []
    · exact Or.inr (Or.inl (List.length_eq_zero_iff.mpr hnil))
    · exact Or.inr (Or.inr fun line hline hstart =>
        hmark hnil (hstart.trans (prefix_of_head?_splitLines hline)))
  have hmoved := placeLines_relocated ⟨path, a.length, a.count newline⟩ hfirst
    (fun _ => ne_nil_of_mem_splitLines) 0
  rw [physicalLines, physicalLines, physicalLines, linesFrom, linesFrom, linesFrom, List.drop_zero,
    List.drop_zero, List.drop_zero, splitLines_append ha, placeLines_append, ← hmoved,
    flatten_splitLines, length_splitLines ha]

/-! ### Outlines of two sources -/

namespace Outline

/-- The outline `b` behind the outline `a`. -/
def append : Outline → Outline → Outline
  | nil, b => b
  | line l next, b => line l (next.append b)
  | definition h body ended next, b => definition h body ended (next.append b)

/-- Every definition at any depth has its end. -/
def Closed : Outline → Prop
  | nil => True
  | line _ next => next.Closed
  | definition _ body ended next => ended = true ∧ body.Closed ∧ next.Closed

theorem chunksBehind_append (f : FileContext) (a b : Outline) (found : List Chunk) :
    (a.append b).chunksBehind f found = b.chunksBehind f (a.chunksBehind f found) := by
  induction a generalizing found with
  | nil => rfl
  | line l next ih => exact ih _
  | definition h body ended next _ ih => exact ih _

/-- A body that is left open is reported. -/
theorem closed_of_events {o : Outline} (h : o.Sound) {x : LineContext}
    (hevents : ∀ name line, .unterminated name line ∉ o.events x) : o.Closed := by
  induction o with
  | nil => trivial
  | line l next ih =>
    exact ih h.2 fun name line hmem => hevents name line (List.mem_append_right _ hmem)
  | definition l body ended next ihb ihn =>
    obtain ⟨hkind, hbody, hnext⟩ := h
    obtain ⟨header, hheader⟩ := PhysicalLine.exists_header? hkind x.mode
    refine ⟨?_, ihb hbody fun name line hmem => hevents name line ?_,
      ihn hnext fun name line hmem => hevents name line ?_⟩
    · cases ended with
      | true => rfl
      | false => exact absurd (by simp [events, hheader]) (hevents header.name l.number)
    · simp [events, hmem]
    · simp [events, hmem]

theorem closed_of_eventsBehind {o : Outline} (h : o.Sound) {f : FileContext}
    {found : List Chunk}
    (hevents : ∀ name line, .unterminated name line ∉ o.eventsBehind f found) : o.Closed := by
  induction o generalizing found with
  | nil => trivial
  | line l next ih =>
    exact ih h.2 fun name line hmem => hevents name line (List.mem_append_right _ hmem)
  | definition l body ended next _ ih =>
    obtain ⟨hkind, hbody, hnext⟩ := h
    obtain ⟨hended, hinside, -⟩ := closed_of_events (o := definition l body ended nil)
      ⟨hkind, hbody, trivial⟩ fun name line hmem =>
        hevents name line (List.mem_append_left _ hmem)
    exact ⟨hended, hinside, ih hnext fun name line hmem =>
      hevents name line (List.mem_append_right _ hmem)⟩

end Outline

/-- A body that has its end takes no line of what comes behind. -/
theorem BodyOutline.append {lines left : List PhysicalLine} {o : Outline} {ended : Bool}
    (h : BodyOutline lines o ended left) (hended : ended = true) (hclosed : o.Closed)
    (more : List PhysicalLine) : BodyOutline (lines ++ more) o ended (left ++ more) := by
  induction h with
  | nil => exact absurd hended (by decide)
  | lastLine hkind hends => exact .lastLine hkind hends
  | line hkind hends _ ih => exact .line hkind hends (ih hended hclosed)
  | lastDefinition hkind hends _ ih => exact .lastDefinition hkind hends (ih hclosed.1 hclosed.2.1)
  | definition hkind hends _ _ ihb ihn =>
    exact .definition hkind hends (ihb hclosed.1 hclosed.2.1) (ihn hended hclosed.2.2)

/-- The lines of two sources make both outlines, if no definition of the first is open. -/
theorem FileOutline.append {a b : List PhysicalLine} {o o' : Outline} (h : FileOutline a o)
    (hclosed : o.Closed) (h' : FileOutline b o') : FileOutline (a ++ b) (o.append o') := by
  induction h with
  | nil => exact h'
  | line hkind _ ih => exact .line hkind (ih hclosed)
  | definition hkind hbody _ ih =>
    obtain ⟨hended, hinside, hnext⟩ := hclosed
    exact .definition hkind (hbody.append hended hinside b) (ih hnext)

theorem BodyOutline.relocated {lines left : List PhysicalLine} {o : Outline} {ended : Bool}
    (h : BodyOutline lines o ended left) (r : Relocation) :
    BodyOutline (lines.map (PhysicalLine.relocated r)) (o.relocated r) ended
      (left.map (PhysicalLine.relocated r)) := by
  induction h with
  | nil => exact .nil
  | lastLine hkind hends => exact .lastLine hkind hends
  | line hkind hends _ ih => exact .line hkind hends ih
  | lastDefinition hkind hends _ ih => exact .lastDefinition hkind hends ih
  | definition hkind hends _ _ ihb ihn => exact .definition hkind hends ihb ihn

theorem FileOutline.relocated {lines : List PhysicalLine} {o : Outline} (h : FileOutline lines o)
    (r : Relocation) :
    FileOutline (lines.map (PhysicalLine.relocated r)) (o.relocated r) := by
  induction h with
  | nil => exact .nil
  | line hkind _ ih => exact .line hkind ih
  | definition hkind hbody _ ih => exact .definition hkind (hbody.relocated r) ih

theorem constantsOf_relocated (r : Relocation) (path : SourcePath) (mode : Mode)
    (lines : List PhysicalLine) :
    constantsOf r.path mode (lines.map (PhysicalLine.relocated r)) =
      (constantsOf path mode lines).map (Constant.relocated r) := by
  rw [constantsOf, constantsOf, List.filterMap_map, List.map_filterMap]
  exact List.filterMap_congr fun l _ => l.constant?_relocated r path mode

/-! ### Imports of two sources -/

theorem FileContext.callable_nil (f : FileContext) :
    f.callable [] = visibleMacros (firstOfPaths [] f.includes) := by
  simp [callable]

section Included

variable {mode : Mode} {includes : List Catalog} {a b ab : SourcePath} {file : Catalog}

/-- The macros of a further include can be called as if its chunks had been found. -/
theorem FileContext.callable_include
    (ha : (⟨a, mode, includes⟩ : FileContext).Unshadowed) (hpath : file.path = a) :
    (⟨b, mode, includes ++ [file]⟩ : FileContext).callable [] =
      (⟨ab, mode, includes⟩ : FileContext).callable [] ++
        file.chunks.toList.filterMap Chunk.definition? := by
  have hother : includes.any (·.path.same a) = false := ha
  have hfirst : firstOfPaths [] (includes ++ [file]) = firstOfPaths [] includes ++ [file] := by
    rw [firstOfPaths_concat, hpath, hother]
    simp
  rw [callable_nil, callable_nil, hfirst, ← ChunkSet.filterMap_eq, visibleMacros, visibleMacros,
    List.flatMap_append, List.flatMap_singleton]
  rfl

/-- A file and the one behind it make the chunks of the whole, where the second calls the
macros of the first as those of an include. -/
theorem Outline.chunksBehind_concatenated
    (ha : (⟨a, mode, includes⟩ : FileContext).Unshadowed)
    (hb : (⟨b, mode, includes ++ [file]⟩ : FileContext).Unshadowed)
    (hab : (⟨ab, mode, includes⟩ : FileContext).Unshadowed) (hpath : file.path = a)
    {o o' : Outline} (hchunks : file.chunks.toList = o.chunksBehind ⟨a, mode, includes⟩ [])
    (bytes lines : Nat) :
    ((o.append (o'.relocated ⟨ab, bytes, lines⟩)).chunksBehind ⟨ab, mode, includes⟩ []).map
        (Chunk.relocated { path := ab }) =
      file.chunks.toList.map (Chunk.relocated { path := ab }) ++
        (o'.chunksBehind ⟨b, mode, includes ++ [file]⟩ []).map
          (Chunk.relocated ⟨ab, bytes, lines⟩) := by
  have hnil : (⟨a, mode, includes⟩ : FileContext).callable [] =
      (⟨ab, mode, includes⟩ : FileContext).callable [] := by
    rw [FileContext.callable_nil, FileContext.callable_nil]
  obtain ⟨found, found', hfound, hfound', hsame⟩ :=
    chunksBehind_relocated (r := { path := ab }) ha hab rfl o (congrArg (List.map Macro.bare) hnil)
  rw [relocated_path, List.nil_append] at hfound'
  rw [List.nil_append, ← hchunks] at hfound
  -- What the second file calls through its includes stands in the whole before its lines.
  have hcallable : ((⟨b, mode, includes ++ [file]⟩ : FileContext).callable []).map Macro.bare =
      ((⟨ab, mode, includes⟩ : FileContext).callable found').map Macro.bare := by
    rw [FileContext.callable_include ha hpath, hfound, ← found'.nil_append,
      FileContext.callable_append hab, List.map_append, List.map_append,
      map_bare_definitions hsame]
  obtain ⟨new, new', hnew, hnew', hsame'⟩ :=
    chunksBehind_relocated (r := ⟨ab, bytes, lines⟩) hb hab rfl o' hcallable
  rw [chunksBehind_append, hfound', hnew', hnew, hfound, List.nil_append, List.map_append, hsame,
    hsame']

end Included

namespace Catalog

variable {mode : Mode} {includes : List Catalog} {a b ab : SourcePath} {first second : Bytes}

/-- The import of two sources in one file gives what the imports of both give, where the
second has the file of the first as its last include.  The first has to end with a line
and with all its definitions, the second must not begin with a mark that would be hidden,
and the paths are apart. -/
theorem ofSource_append
    (hwhole : first = [] ∨ first.getLast? = some newline)
    (hmark : first ≠ [] → ¬ byteOrderMark <+: second)
    (hended : ∀ e ∈ (ofSource { mode, includes } a (.ofBytes first) 0 false).events,
      e.message ≠ "macro body runs to end of input")
    (hab : a.same b = false)
    (hpaths : ∀ f ∈ includes,
      f.path.same a = false ∧ f.path.same b = false ∧ f.path.same ab = false) :
    ∃ file file' whole : Catalog,
      (ofSource { mode, includes } a (.ofBytes first) 0 false).result = .ok file ∧
      (ofSource { mode, includes := includes ++ [file] } b (.ofBytes second) 0 false).result =
        .ok file' ∧
      (ofSource { mode, includes } ab (.ofBytes (first ++ second)) 0 false).result = .ok whole ∧
      whole.chunks.toList.map (Chunk.relocated { path := ab }) =
        file.chunks.toList.map (Chunk.relocated { path := ab }) ++
          file'.chunks.toList.map (Chunk.relocated ⟨ab, first.length, first.count newline⟩) ∧
      whole.constants =
        file.constants.map (Constant.relocated { path := ab }) ++
          file'.constants.map (Constant.relocated ⟨ab, first.length, first.count newline⟩) := by
  let r : Relocation := ⟨ab, first.length, first.count newline⟩
  have hunshadowed (p : SourcePath) (hp : ∀ f ∈ includes, f.path.same p = false) :
      (⟨p, mode, includes⟩ : FileContext).Unshadowed :=
    List.any_eq_false.mpr fun f hf => by simp [hp f hf]
  have ha := hunshadowed a fun f hf => (hpaths f hf).1
  have hw := hunshadowed ab fun f hf => (hpaths f hf).2.2
  -- The outlines of both sources make that of the whole.
  obtain ⟨o, ho⟩ := exists_fileOutline (physicalLines first 0)
  obtain ⟨o', ho'⟩ := exists_fileOutline (physicalLines second 0)
  have hlines := physicalLines_append hwhole hmark ab
  obtain ⟨file, hfile, hpath, hchunks, hconstants⟩ :=
    ofSource_ofBytes ⟨a, mode, includes⟩ first 0 ho
  have hclosed : o.Closed := by
    have hevents := congrArg Import.Outcome.events hfile
    exact Outline.closed_of_eventsBehind ho.sound fun name line hmem =>
      hended (.unterminated name line) (hevents ▸ List.mem_append_left _ hmem) rfl
  obtain ⟨file', hfile', -, hchunks', hconstants'⟩ :=
    ofSource_ofBytes ⟨b, mode, includes ++ [file]⟩ second 0 ho'
  obtain ⟨whole, himport, -, hchunks'', hconstants''⟩ :=
    ofSource_ofBytes ⟨ab, mode, includes⟩ (first ++ second) 0
      (hlines ▸ ho.append hclosed (ho'.relocated r))
  refine ⟨file, file', whole, congrArg Import.Outcome.result hfile,
    congrArg Import.Outcome.result hfile', congrArg Import.Outcome.result himport, ?_, ?_⟩
  · have hb : (⟨b, mode, includes ++ [file]⟩ : FileContext).Unshadowed := by
      refine List.any_eq_false.mpr fun f hf => ?_
      rcases List.mem_append.mp hf with hf | hf
      · simp [(hpaths f hf).2.1]
      · rw [List.mem_singleton.mp hf, hpath]
        simp [hab]
    rw [hchunks'', hchunks']
    exact Outline.chunksBehind_concatenated ha hb hw hpath hchunks first.length _
  · have hstay : (physicalLines first 0).map (PhysicalLine.relocated { path := ab }) =
        physicalLines first 0 := List.map_id'' (PhysicalLine.relocated_path ab) _
    have hsame := constantsOf_relocated { path := ab } a mode (physicalLines first 0)
    have hsame' := constantsOf_relocated r b mode (physicalLines second 0)
    rw [hstay] at hsame
    rw [hconstants'', hlines, constantsOf_append, hconstants, hconstants', ← hsame, ← hsame']

/-- A file that defines the macro `k`. -/
def includedFile : Catalog :=
  Catalog.add { path := ⟨['i']⟩ } ⟨⟨['i']⟩, 0, 0, 15, .macroDef ⟨['k'], [], [], true⟩⟩

/-- The definition of the macro `m`, with another one inside it. -/
def definingSource : Bytes :=
  Utf8.encode
    ['m', ' ', 'm', 'a', 'c', 'r', 'o', ' ', 'x', '\n', 'n', ' ', 'm', 'a', 'c', 'r', 'o', '\n',
      '\t', 'e', 'n', 'd', 'm', '\n', '\t', 'e', 'n', 'd', 'm', '\n']

/-- A call of both macros, and the declaration of a constant. -/
def usingSource : Bytes :=
  Utf8.encode ['\t', 'm', ' ', '1', '\n', '\t', 'k', '\n', 'v', ' ', 'e', 'q', 'u', ' ', '2', '\n']

theorem ofSource_append_definingSource :
    ∃ file file' whole : Catalog,
      (ofSource { includes := [includedFile] } ⟨['a']⟩ (.ofBytes definingSource) 0 false).result =
        .ok file ∧
      (ofSource { includes := [includedFile, file] } ⟨['b']⟩ (.ofBytes usingSource) 0
        false).result = .ok file' ∧
      (ofSource { includes := [includedFile] } ⟨['c']⟩ (.ofBytes (definingSource ++ usingSource)) 0
        false).result = .ok whole ∧
      whole.chunks.toList.map (Chunk.relocated { path := ⟨['c']⟩ }) =
        file.chunks.toList.map (Chunk.relocated { path := ⟨['c']⟩ }) ++
          file'.chunks.toList.map (Chunk.relocated ⟨⟨['c']⟩, 30, 4⟩) ∧
      whole.constants =
        file.constants.map (Constant.relocated { path := ⟨['c']⟩ }) ++
          file'.constants.map (Constant.relocated ⟨⟨['c']⟩, 30, 4⟩) ∧
      whole.allChunks.map (fun c => (c.position, c.line,
          (c.statement?.bind (·.invocation?)).map (·.callee.name))) =
        [(0, 0, none), (10, 1, none), (18, 2, none), (24, 3, none), (30, 4, some ['m']),
          (35, 5, some ['k']), (38, 6, none)] := by
  obtain ⟨file, file', whole, hfile, hfile', hwhole, hchunks, hconstants⟩ :=
    @ofSource_append .legacy [includedFile] ⟨['a']⟩ ⟨['b']⟩ ⟨['c']⟩ definingSource usingSource
      (by decide +kernel) (by decide +kernel) (by decide +kernel) (by decide) (by decide +kernel)
  refine ⟨file, file', whole, hfile, hfile', hwhole, hchunks, hconstants, ?_⟩
  have hcalls : (ofSource { includes := [includedFile] } ⟨['c']⟩
      (.ofBytes (definingSource ++ usingSource)) 0 false).result.toOption.map
        (fun whole => whole.allChunks.map fun c => (c.position, c.line,
          (c.statement?.bind (·.invocation?)).map (·.callee.name))) =
      some [(0, 0, none), (10, 1, none), (18, 2, none), (24, 3, none), (30, 4, some ['m']),
        (35, 5, some ['k']), (38, 6, none)] := by
    decide +kernel
  rw [hwhole] at hcalls
  exact Option.some.inj hcalls

end Catalog

end AsmCatalog
