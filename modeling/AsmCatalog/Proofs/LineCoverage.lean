/-
Every line is catalogued once, under its own number.

The chunks of an import at all depths, each before those in its body, are the lines that
are not blank, one for one and in order; each has the place of its line, and says what
the line says by itself.  A blank line has no chunk, and inside a macro an empty body
entry stands for it.

Main definitions:
* `freshLine` — the line that a new cursor reads at an offset;
* `Chunk.IsOf` — a chunk has the place, the kind and the content of a line;
* `Catalog.CoversLines` — each line has its chunk or none.

Main statements:
* `Outline.Makes.forall₂_isOf` — chunks and lines go together one for one;
* `Outline.Makes.exists_absent` — an empty entry stands for a blank line of a body;
* `Catalog.coversLines_of_fixed` — an import catalogs every line once.
-/
import Mathlib.Data.List.Forall2
import AsmCatalog.Proofs.Tiling

namespace AsmCatalog

/-! ### Lines by themselves -/

/-- The line that a new cursor reads when it has been moved to an offset. -/
def freshLine (bytes : Bytes) (position : Nat) : Option Text :=
  match (Cursor.seek position >>= fun _ => Cursor.readLine)
    { source := .ofBytes bytes, position := 0 } with
  | .ok (line, _) => line
  | .error _ => none

theorem freshLine_eq {bytes : Bytes} {l : PhysicalLine} (h : l.FoundIn bytes) :
    freshLine bytes l.position = some l.text := by
  have hread := Cursor.readLine_eq
    (show ({ source := .ofBytes bytes, position := l.position } : Cursor).source = _ from rfl)
    rfl h rfl
  rw [freshLine]
  show (match Cursor.readLine { source := .ofBytes bytes, position := l.position } with
    | .ok (line, _) => line
    | .error _ => none) = _
  rw [hread]

/-- The content is what a line with this text gives by itself. -/
def Content.IsOf (mode : Mode) (text : Text) : Content Chunk → Prop
  | .comment said => said = commentText text
  | .statement s => s.text = text
  | .macroDef m => MacroHeader.parse? mode (Text.normalize text) = some ⟨m.name, m.parameters⟩

/-- The chunk has the number, the place and the kind of a line, and the content that the
line gives by itself. -/
structure Chunk.IsOf (mode : Mode) (l : PhysicalLine) (c : Chunk) : Prop where
  line : c.line = l.number
  position : c.position = l.position
  kind : c.kind = l.kind
  content : c.content.IsOf mode l.text

theorem PhysicalLine.isOf_entry {x : LineContext} {l : PhysicalLine} {c : Chunk}
    (hkind : l.kind ≠ .macroDef) (hc : l.entry x = some c) : c.IsOf x.mode l := by
  obtain ⟨-, hposition, hline, hk⟩ := place_of_entry hkind hc
  refine ⟨hline, hposition, hk, ?_⟩
  rcases kind_cases hkind with h | h
  · rw [entry_comment h] at hc
    obtain rfl := Option.some.inj hc
    rfl
  · rw [entry_statement h] at hc
    split at hc
    · exact absurd hc (by simp)
    · obtain rfl := Option.some.inj hc
      rfl

theorem PhysicalLine.isOf_definition {x : LineContext} {h : PhysicalLine}
    {header : MacroHeader} (hkind : h.kind = .macroDef)
    (hheader : h.header? x.mode = some header) (entries : List (Option Chunk)) (length : Nat) :
    (h.definition x header entries length).IsOf x.mode h :=
  ⟨rfl, rfl, hkind.symm, hheader⟩

/-! ### Chunks and lines -/

theorem LaidOut.pairwise_number {bytes : Bytes} {position : Nat} {number : Int}
    {lines : List PhysicalLine} (h : LaidOut bytes position number lines) :
    (∀ l ∈ lines, number ≤ l.number) ∧ lines.Pairwise fun a b => a.number < b.number := by
  induction lines generalizing position number with
  | nil => exact ⟨fun _ hl => absurd hl List.not_mem_nil, .nil⟩
  | cons l rest ih =>
    obtain ⟨-, rfl, hrest⟩ := h.first
    obtain ⟨hle, hpairwise⟩ := ih hrest
    refine ⟨fun l' hl' => ?_, List.pairwise_cons.mpr ⟨fun l' hl' => ?_, hpairwise⟩⟩
    · rcases List.mem_cons.mp hl' with rfl | hl'
      · exact Int.le_refl _
      · exact Int.le_trans (Int.le_add_one (Int.le_refl _)) (hle l' hl')
    · exact Int.lt_of_add_one_le (hle l' hl')

theorem LaidOut.number_of_getElem? {bytes : Bytes} {position : Nat} {number : Int}
    {lines : List PhysicalLine} (h : LaidOut bytes position number lines) {k : Nat}
    {l : PhysicalLine} (hl : lines[k]? = some l) : l.number = number + k := by
  induction lines generalizing position number k with
  | nil => exact absurd hl (by simp)
  | cons l' rest ih =>
    obtain ⟨-, rfl, hrest⟩ := h.first
    cases k with
    | zero =>
      rw [List.getElem?_cons_zero] at hl
      rw [Option.some.inj hl]
      exact (Int.add_zero _).symm
    | succ k =>
      rw [List.getElem?_cons_succ] at hl
      rw [ih hrest hl]
      omega

/-- Of chunks that go with lines one for one, none has a number that no line has. -/
theorem filter_line_eq_nil {mode : Mode} {lines : List PhysicalLine} {chunks : List Chunk}
    (h : List.Forall₂ (Chunk.IsOf mode) lines chunks) {k : Int}
    (hk : ∀ l ∈ lines, l.number ≠ k) : chunks.filter (·.line = k) = [] := by
  induction h with
  | nil => rfl
  | @cons l c rest later hc _ ih =>
    have hne : c.line ≠ k := by
      rw [hc.line]
      exact hk l List.mem_cons_self
    rw [List.filter_cons_of_neg (by simpa using hne)]
    exact ih fun l' hl' => hk l' (List.mem_cons_of_mem _ hl')

/-- Of chunks that go with lines one for one, just one has the number of a given line. -/
theorem exists_filter_line_eq {mode : Mode} {lines : List PhysicalLine} {chunks : List Chunk}
    (h : List.Forall₂ (Chunk.IsOf mode) lines chunks)
    (hlines : lines.Pairwise fun a b => a.number < b.number) {l : PhysicalLine}
    (hl : l ∈ lines) : ∃ c, chunks.filter (·.line = l.number) = [c] ∧ c.IsOf mode l := by
  induction h with
  | nil => exact absurd hl List.not_mem_nil
  | @cons l' c rest later hc hlater ih =>
    obtain ⟨hbehind, hrest⟩ := List.pairwise_cons.mp hlines
    rcases List.mem_cons.mp hl with rfl | hl
    · refine ⟨c, ?_, hc⟩
      rw [List.filter_cons_of_pos (by simpa using hc.line),
        filter_line_eq_nil hlater fun l' hl' => Int.ne_of_gt (hbehind l' hl')]
    · have hne : c.line ≠ l.number := by
        rw [hc.line]
        exact Int.ne_of_lt (hbehind l hl)
      rw [List.filter_cons_of_neg (by simpa using hne)]
      exact ih hrest hl

namespace Outline.Makes

variable {f : FileContext} {o : Outline} {entries : List (Option Chunk)} {bytes : Bytes}
  {position : Nat} {number : Int}

/-- The chunks at all depths are those of the lines that are not blank, in order. -/
theorem forall₂_isOf (h : o.Makes f entries) :
    List.Forall₂ (Chunk.IsOf f.mode) (o.lines.filter (!·.isBlank))
      ((present entries).flatMap Chunk.all) := by
  induction h with
  | nil => exact .nil
  | @line l next later found hkind _ ih =>
    rw [Outline.lines, flatMap_present_cons]
    rcases PhysicalLine.entry_cases hkind (f.behind found) with
      ⟨hblank, hentry⟩ | ⟨hblank, c, hentry, hbody⟩
    · rw [hentry, List.filter_cons_of_neg (by simp [hblank])]
      exact ih
    · rw [hentry, List.filter_cons_of_pos (by simp [hblank]), Option.map_some,
        Option.getD_some, Chunk.all_of_body_nil hbody]
      exact .cons (PhysicalLine.isOf_entry hkind hentry) ih
  | @definition h body next ended header inner later found hkind hheader _ _ ihb ihn =>
    have hblank := PhysicalLine.isBlank_of_header hkind
    rw [Outline.lines, flatMap_present_cons, List.filter_cons_of_pos (by simp [hblank]),
      Option.map_some, Option.getD_some, Chunk.all_eq, PhysicalLine.definition_body,
      List.filter_append]
    exact .cons (PhysicalLine.isOf_definition (x := f.behind found) hkind hheader _ _)
      (List.rel_append ihb ihn)

theorem all_within (h : o.Makes f entries) (hlines : LaidOut bytes position number o.lines)
    {c : Chunk} (hc : c ∈ (present entries).flatMap Chunk.all) :
    position ≤ c.position ∧ c.stop ≤ position + extent o.lines := by
  induction h generalizing position number with
  | nil => exact absurd hc List.not_mem_nil
  | @line l next later found hkind _ ih =>
    have hl := hlines.found
    have hlt := hl.position_lt_stop
    obtain ⟨rfl, rfl, hrest⟩ := hlines.first
    rw [Outline.add_extent_line]
    rcases (PhysicalLine.mem_all_entry hkind).mp hc with hentry | hc
    · obtain ⟨-, hposition, -⟩ := PhysicalLine.place_of_entry hkind hentry
      have hextent := extentStop_entry hl hkind hentry
      have := c.stop_le_extentStop bytes
      omega
    · have := ih hrest hc
      omega
  | @definition h body next ended header inner later found _ _ _ _ ihb ihn =>
    have hlt := hlines.found.position_lt_stop
    obtain ⟨rfl, rfl, hrest⟩ := hlines.first
    obtain ⟨hinside, hbehind⟩ := laidOut_append.mp hrest
    rw [Outline.add_extent_definition]
    rcases PhysicalLine.mem_all_definition.mp hc with rfl | hc | hc
    · rw [PhysicalLine.definition_stop, PhysicalLine.definition_position]
      omega
    · have := ihb hinside hc
      omega
    · have := ihn hbehind hc
      omega

/-- A definition covers the lines of its body. -/
theorem covers_definition {h l : PhysicalLine} (hh : h.FoundIn bytes) {x : LineContext}
    {header : MacroHeader} {inner : List (Option Chunk)} {length : Nat}
    (hl : h.stop ≤ l.position ∧ l.position < l.stop ∧ l.stop ≤ h.stop + length) :
    (h.definition x header inner length).Covers l.position := by
  have hlt := hh.position_lt_stop
  refine ⟨?_, ?_⟩
  · rw [PhysicalLine.definition_position]
    omega
  · rw [PhysicalLine.definition_stop]
    omega

/-- For a blank line an empty entry stands among the entries, or in the body of a
definition around it. -/
theorem exists_absent (h : o.Makes f entries) (hlines : LaidOut bytes position number o.lines)
    {l : PhysicalLine} (hl : l ∈ o.lines) (hblank : l.isBlank = true) :
    (l.number, none) ∈ numbered number entries ∨
      ∃ m ∈ (present entries).flatMap Chunk.all, m.kind = .macroDef ∧
        m.Covers l.position ∧ (l.number, none) ∈ numbered (m.line + 1) m.body := by
  induction h generalizing position number with
  | nil => exact absurd hl List.not_mem_nil
  | @line l' next later found hkind _ ih =>
    obtain ⟨-, rfl, hrest⟩ := hlines.first
    rw [numbered, PhysicalLine.entryLines_entry hkind]
    rcases List.mem_cons.mp hl with rfl | hl
    · left
      rw [PhysicalLine.entry_statement (PhysicalLine.kind_of_isBlank hblank), if_pos hblank]
      exact List.mem_cons_self
    · rcases ih hrest hl with habsent | ⟨m, hm, hmacro, habsent⟩
      · exact Or.inl (List.mem_cons_of_mem _ habsent)
      · exact Or.inr ⟨m, (PhysicalLine.mem_all_entry hkind).mpr (Or.inr hm), hmacro, habsent⟩
  | @definition h body next ended header inner later found hkind _ hbody _ ihb ihn =>
    have hfound := hlines.found
    obtain ⟨-, rfl, hrest⟩ := hlines.first
    obtain ⟨hinside, hbehind⟩ := laidOut_append.mp hrest
    rw [numbered, hbody.entryLines_definition]
    rcases List.mem_cons.mp hl with rfl | hl
    · rw [PhysicalLine.isBlank_of_header hkind] at hblank
      exact absurd hblank (by simp)
    rcases List.mem_append.mp hl with hl | hl
    · -- The line stands in the body, so the entry is in the body of this definition or of
      -- one inside it.
      right
      rcases ihb hinside hl with habsent | ⟨m, hm, hmacro, habsent⟩
      · exact ⟨_, PhysicalLine.mem_all_definition.mpr (Or.inl rfl), rfl,
          covers_definition hfound (hinside.within hl), habsent⟩
      · exact ⟨m, PhysicalLine.mem_all_definition.mpr (Or.inr (Or.inl hm)), hmacro, habsent⟩
    · rcases ihn hbehind hl with habsent | ⟨m, hm, hmacro, habsent⟩
      · exact Or.inl (List.mem_cons_of_mem _ habsent)
      · exact Or.inr
          ⟨m, PhysicalLine.mem_all_definition.mpr (Or.inr (Or.inr hm)), hmacro, habsent⟩

/-- For a blank line inside a definition an empty entry stands in the body of one. -/
theorem exists_absent_of_covers (h : o.Makes f entries)
    (hlines : LaidOut bytes position number o.lines) {l : PhysicalLine} (hl : l ∈ o.lines)
    (hblank : l.isBlank = true) {c : Chunk} (hc : c ∈ (present entries).flatMap Chunk.all)
    (hkind : c.kind = .macroDef) (hinside : c.Covers l.position) :
    ∃ m ∈ (present entries).flatMap Chunk.all, m.kind = .macroDef ∧
      m.Covers l.position ∧ (l.number, none) ∈ numbered (m.line + 1) m.body := by
  induction h generalizing position number with
  | nil => exact absurd hl List.not_mem_nil
  | @line l' next later found hline hlater ih =>
    have hlt := hlines.found.position_lt_stop
    obtain ⟨-, -, hrest⟩ := hlines.first
    rcases (PhysicalLine.mem_all_entry hline).mp hc with hentry | hbehind
    · obtain ⟨-, -, -, hck⟩ := PhysicalLine.place_of_entry hline hentry
      exact absurd (hck.symm.trans hkind) hline
    rcases List.mem_cons.mp hl with rfl | hl
    · have := hlater.all_within hrest hbehind
      exact absurd hinside.1 (by omega)
    · obtain ⟨m, hm, hmacro, habsent⟩ := ih hrest hl hbehind
      exact ⟨m, (PhysicalLine.mem_all_entry hline).mpr (Or.inr hm), hmacro, habsent⟩
  | @definition h body next ended header inner later found hheader _ hbody _ _ ihn =>
    have hfound := hlines.found
    obtain ⟨-, rfl, hrest⟩ := hlines.first
    obtain ⟨hown, hbehind⟩ := laidOut_append.mp hrest
    rcases List.mem_cons.mp hl with rfl | hl
    · rw [PhysicalLine.isBlank_of_header hheader] at hblank
      exact absurd hblank (by simp)
    rcases List.mem_append.mp hl with hl | hl
    · rcases hbody.exists_absent hown hl hblank with habsent | ⟨m, hm, hmacro, habsent⟩
      · exact ⟨_, PhysicalLine.mem_all_definition.mpr (Or.inl rfl), rfl,
          covers_definition hfound (hown.within hl), habsent⟩
      · exact ⟨m, PhysicalLine.mem_all_definition.mpr (Or.inr (Or.inl hm)), hmacro, habsent⟩
    · -- The line stands behind the definition, so neither the definition nor a chunk inside
      -- it is the one around the line.
      have hbound := hbehind.within hl
      have hlt := hinside.2
      rcases PhysicalLine.mem_all_definition.mp hc with rfl | hc | hc
      · rw [PhysicalLine.definition_stop] at hlt
        omega
      · have := hbody.all_within hown hc
        omega
      · obtain ⟨m, hm, hmacro, habsent⟩ := ihn hbehind hl hc
        exact ⟨m, PhysicalLine.mem_all_definition.mpr (Or.inr (Or.inr hm)), hmacro, habsent⟩

end Outline.Makes

/-! ### The lines of an import -/

namespace Catalog

/-- Each of the lines of some bytes from an offset on is catalogued once or, if it is
blank, not at all. -/
structure CoversLines (file : Catalog) (mode : Mode) (bytes : Bytes) (start : Nat) : Prop where
  /-- Just one chunk has the number of a line with something on it.  It has the place of the
  line, the kind that the line tells, and what a new cursor reads there. -/
  written : ∀ (k : Nat) (l : PhysicalLine), (physicalLines bytes start)[k]? = some l →
    l.isBlank = false →
    ∃ c text, file.allChunks.filter (·.line = (k : Int)) = [c] ∧ c.position = l.position ∧
      freshLine bytes l.position = some text ∧ ChunkKind.classify (some text) = .ok c.kind ∧
      c.content.IsOf mode text
  /-- No chunk has the number of a blank line. -/
  blank : ∀ (k : Nat) (l : PhysicalLine), (physicalLines bytes start)[k]? = some l →
    l.isBlank = true → file.allChunks.filter (·.line = (k : Int)) = []
  /-- For a blank line inside a macro an empty entry with its number stands in the body of a
  macro around it. -/
  absent : ∀ (k : Nat) (l : PhysicalLine), (physicalLines bytes start)[k]? = some l →
    l.isBlank = true →
    (∃ c ∈ file.allChunks, c.kind = .macroDef ∧ c.Covers l.position) →
    ∃ m ∈ file.allChunks, m.kind = .macroDef ∧ m.Covers l.position ∧
      ((k : Int), none) ∈ numbered (m.line + 1) m.body

/-- An import catalogs every line once, under its own number and at its own place. -/
theorem coversLines_of_fixed {settings : Import.Settings} {path : SourcePath}
    {source : Source} {start : Nat} {stopped : Bool} {file : Catalog}
    (hfixed : source.Fixed)
    (h : (ofSource settings path source start stopped).result = .ok file) :
    file.CoversLines settings.mode source.bytes start := by
  obtain ⟨o, entries, ho, hmakes, hchunks⟩ := exists_makes_of_fixed hfixed h
  have hlaid := laidOut_linesFrom source.bytes start 0
  rw [← physicalLines] at hlaid
  have hlines := hlaid
  rw [← ho.lines_eq] at hlines
  have hall : file.allChunks = (present entries).flatMap Chunk.all := by
    rw [allChunks, hchunks]
  have hcount : ∀ {k : Nat} {l : PhysicalLine},
      (physicalLines source.bytes start)[k]? = some l → l.number = k := by
    intro k l hl
    rw [hlaid.number_of_getElem? hl, Int.zero_add]
  have hpaired := hmakes.forall₂_isOf
  rw [ho.lines_eq, ← hall] at hpaired
  have hordered := hlaid.pairwise_number.2
  constructor
  · intro k l hl hblank
    have hmem : l ∈ (physicalLines source.bytes start).filter (!·.isBlank) :=
      List.mem_filter.mpr ⟨List.mem_of_getElem? hl, by simp [hblank]⟩
    obtain ⟨c, hc, hof⟩ := exists_filter_line_eq hpaired (hordered.filter _) hmem
    rw [hcount hl] at hc
    refine ⟨c, l.text, hc, hof.position, freshLine_eq ?_, ?_, hof.content⟩
    · exact hlaid.found_of_mem (List.mem_of_getElem? hl)
    · rw [hof.kind]
      rfl
  · intro k l hl hblank
    refine filter_line_eq_nil hpaired fun l' hl' heq => ?_
    -- Numbers tell lines apart, so such a chunk would be of the blank line itself.
    obtain ⟨hmem, hwritten⟩ := List.mem_filter.mp hl'
    obtain ⟨k', hk'⟩ := List.mem_iff_getElem?.mp hmem
    have hsame : k' = k := by
      have := hcount hk'
      omega
    rw [hsame, hl] at hk'
    rw [← Option.some.inj hk', hblank] at hwritten
    exact absurd hwritten (by simp)
  · intro k l hl hblank hinside
    obtain ⟨c, hc, hkind, hcovers⟩ := hinside
    rw [hall] at hc ⊢
    rw [← hcount hl]
    have hmem : l ∈ o.lines := ho.lines_eq ▸ List.mem_of_getElem? hl
    exact hmakes.exists_absent_of_covers hlines hmem hblank hc hkind hcovers

/-- Reliable bytes have one chunk for each line with something on it. -/
theorem exists_isOf_ofBytes {bytes : Bytes} {start : Nat} {l : PhysicalLine}
    (path : SourcePath) (mode : Mode) (includes : List Catalog)
    (hl : l ∈ physicalLines bytes start) (hblank : l.isBlank = false) : ∃ file chunk,
      (ofSource { mode, includes } path (.ofBytes bytes) start false).result = .ok file ∧
      file.allChunks.filter (·.line = l.number) = [chunk] ∧ chunk.IsOf mode l := by
  obtain ⟨file, hfile⟩ := exists_ok_ofBytes path mode includes bytes start
  obtain ⟨o, entries, ho, hmakes, hchunks⟩ :=
    exists_makes_of_fixed (Source.fixed_ofBytes bytes) hfile
  have hall : file.allChunks = (present entries).flatMap Chunk.all := by
    rw [allChunks, hchunks]
  have hpaired := hmakes.forall₂_isOf
  rw [ho.lines_eq, ← hall] at hpaired
  have hordered := (laidOut_linesFrom bytes start 0).pairwise_number.2
  have hmem : l ∈ (physicalLines bytes start).filter (!·.isBlank) :=
    List.mem_filter.mpr ⟨hl, by simp [hblank]⟩
  obtain ⟨chunk, hchunk, hof⟩ := exists_filter_line_eq hpaired (hordered.filter _) hmem
  exact ⟨file, chunk, hfile, hchunk, hof⟩

/-- A source with a macro around a blank line and another macro. -/
def numberedSource : Bytes :=
  Utf8.encode
    ['m', ' ', 'm', 'a', 'c', 'r', 'o', '\n', '\n', 'n', ' ', 'm', 'a', 'c', 'r', 'o', '\n',
      ';', 'e', 'n', 'd', 'm', '\n', ' ', 'e', 'n', 'd', 'm', '\n', '\n', 'x']

theorem coversLines_of_fixed_numberedSource :
    ∃ file, (ofSource {} default (.ofBytes numberedSource) 0 false).result = .ok file ∧
      file.CoversLines .legacy numberedSource 0 := by
  obtain ⟨file, hfile⟩ := exists_ok_ofBytes default .legacy [] numberedSource 0
  exact ⟨file, hfile, coversLines_of_fixed (Source.fixed_ofBytes _) hfile⟩

end Catalog

end AsmCatalog
