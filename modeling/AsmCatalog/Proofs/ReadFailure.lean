/-
Imports of a source that fails.

Every attempt to read at some offset or above it fails.  If the offset lies behind all that
the import touches, nothing is noticed.  Otherwise the import fails with the reason of the
source, and what it has reported until then is a beginning of what the whole import reports,
with every comment and every statement whose line could be read.

Main definitions:
* `Source.failing` — bytes that cannot be read from some offset on;
* `Import.CutOff` — how such an import compares with one that does not fail.

Main statement:
* `Catalog.cutOff_of_failing` — this is how it compares.
-/
import AsmCatalog.Proofs.BreakOff

namespace AsmCatalog

/-- Bytes whose reading fails at the offset `n` and above it. -/
def Source.failing (bytes : Bytes) (n : Nat) (reason : Text) : Source :=
  { bytes, fault := some ⟨n, reason⟩ }

/-! ### What a reading touches -/

section Touched

variable {bytes : Bytes} {position start n : Nat} {reason : Text}

theorem Source.failure?_failing (offset : Nat) :
    (Source.failing bytes n reason).failure? offset =
      if n ≤ offset then some reason else none := rfl

/-- Reading a line touches nothing behind the end of the bytes, unless it begins there. -/
theorem Source.lastTouched_le (s : Source) (position : Nat) :
    s.lastTouched position ≤ max s.bytes.length position := by
  have hline : (s.lineAt position).length ≤ s.bytes.length - position := by
    have hstart : s.lineAt position <+: s.bytes.drop position := throughNewline_prefix _
    rw [← List.length_drop]
    exact hstart.length_le
  rw [lastTouched]
  split
  · omega
  · omega

/-- The lines from an offset on end where the bytes do, or at the offset itself. -/
theorem add_extent_physicalLines (bytes : Bytes) (start : Nat) :
    start + extent (physicalLines bytes start) = max bytes.length start := by
  rcases Nat.le_total start bytes.length with hle | hle
  · rw [physicalLines, extent_linesFrom hle, Nat.max_eq_left hle]
  · rw [physicalLines, linesFrom_of_le hle, extent_nil, Nat.add_zero, Nat.max_eq_right hle]

/-- What reading the first of some lines touches lies before the newline of each of the
others. -/
theorem lastTouched_lt_stop {s : Source} {number : Int} {lines : List PhysicalLine}
    (hlines : LaidOut s.bytes position number lines) {l : PhysicalLine} (hl : l ∈ lines)
    (hnewline : newline ∈ l.bytes) : s.lastTouched position < l.stop := by
  cases lines with
  | nil => exact absurd hl List.not_mem_nil
  | cons l₀ rest =>
    have hbytes : s.lineAt position = l₀.bytes := by
      obtain ⟨-, hl₀, -⟩ := hlines
      rw [hl₀]
      rfl
    obtain ⟨hposition, -, hrest⟩ := hlines.first
    have hstop : l₀.stop = position + l₀.bytes.length := by rw [← hposition]; rfl
    rw [Source.lastTouched, hbytes]
    rcases List.mem_cons.mp hl with rfl | hl
    · have hpos := List.length_pos_of_mem hnewline
      rw [if_pos hnewline, hstop]
      omega
    · have hbehind := hrest.within hl
      split
      · omega
      · omega

end Touched

/-! ### Both imports -/

namespace Import

/-- An import whose source fails from the offset `n` on, and one of the same bytes that does
not fail and gives `file`, where the second touches nothing behind the offset `last`. -/
structure CutOff (cut whole : Outcome) (file : Catalog) (bytes : Bytes) (last n : Nat)
    (reason : Text) : Prop where
  /-- It succeeds exactly if what fails is not touched. -/
  succeeds : (∃ f, cut.result = .ok f) ↔ last < n
  /-- Then both do the same. -/
  unnoticed : last < n → cut.result = .ok file ∧ cut.events = whole.events
  /-- Otherwise it fails for the reason of the source, and has reported a beginning of what
  the other one reports. -/
  fails : n ≤ last → cut.result = .error (.unread reason) ∧ cut.events <+: whole.events
  /-- A comment or a statement is among it if its line has a newline before `n`. -/
  reported : n ≤ last → ∀ c ∈ file.allChunks, c.kind ≠ .macroDef →
    newline ∈ (Source.ofBytes bytes).lineAt c.position →
    c.position + ((Source.ofBytes bytes).lineAt c.position).length ≤ n →
    c.event ∈ cut.events

namespace CutOff

variable {cut whole : Outcome} {file : Catalog} {bytes : Bytes} {last n : Nat} {reason : Text}

/-- An import that is cut off. -/
theorem of_error (hle : n ≤ last) (hresult : cut.result = .error (.unread reason))
    (hevents : cut.events <+: whole.events)
    (hreported : ∀ c ∈ file.allChunks, c.kind ≠ .macroDef →
      newline ∈ (Source.ofBytes bytes).lineAt c.position →
      c.position + ((Source.ofBytes bytes).lineAt c.position).length ≤ n →
      c.event ∈ cut.events) : CutOff cut whole file bytes last n reason where
  succeeds := by
    constructor
    · rintro ⟨f, hf⟩
      exact absurd (hf.symm.trans hresult) (by simp)
    · exact fun hlt => absurd hlt (Nat.not_lt_of_le hle)
  unnoticed hlt := absurd hlt (Nat.not_lt_of_le hle)
  fails _ := ⟨hresult, hevents⟩
  reported _ := hreported

/-- An import that touches nothing that fails. -/
theorem of_ok (hlt : last < n) (hresult : cut.result = .ok file)
    (hevents : cut.events = whole.events) : CutOff cut whole file bytes last n reason where
  succeeds := ⟨fun _ => hlt, fun _ => ⟨file, hresult⟩⟩
  unnoticed _ := ⟨hresult, hevents⟩
  fails hle := absurd hle (Nat.not_le_of_lt hlt)
  reported hle := absurd hle (Nat.not_le_of_lt hlt)

end CutOff

/-- Where an import of a failing source breaks off, the source fails. -/
theorem Halts.of_failing {bytes : Bytes} {n : Nat} {reason : Text} {s : State} {e : ImportError}
    (h : Halts s e) (hon : s.cursor.On (· = .failing bytes n reason)) :
    e = .unread reason ∧
      n ≤ (Source.failing bytes n reason).lastTouched s.cursor.position := by
  cases h with
  | unread hfails =>
    rw [hon.source, Source.failure?_failing] at hfails
    split at hfails
    · exact ⟨congrArg _ (Option.some.inj hfails).symm, ‹_›⟩
    · exact absurd hfails (by simp)
  | cancelled hstopped =>
    have hasked := hon.stopped hstopped
    rw [hon.source] at hasked
    exact absurd hasked (by simp [Source.failing])

end Import

namespace Catalog

section Scan

variable {settings : Import.Settings} {path : SourcePath} {source : Source} {start : Nat}
  {stopped : Bool} {s : Import.State}

/-- The state in which the import of a source begins. -/
def beginning (path : SourcePath) (source : Source) (start : Nat) (stopped : Bool) :
    Import.State :=
  ⟨⟨source, start, 0, stopped⟩, -1, { path }, #[]⟩

theorem on_beginning (path : SourcePath) (source : Source) (start : Nat) :
    (beginning path source start false).cursor.On (· = source) :=
  ⟨rfl, fun hstopped => absurd hstopped (by simp [beginning])⟩

/-- A scan from the beginning breaks off, or comes to the end: the bound of the import is
enough for all lines. -/
theorem breaksOrEnds_beginning {f : FileContext} {o : Outline} (hsettled : source.Settled)
    (ho : FileOutline (physicalLines source.bytes start) o) :
    Import.BreaksOrEnds f (source.capacity + 1) (physicalLines source.bytes start)
      (o.eventsBehind f []) (beginning f.path source start false) := by
  have hstands : Import.Stands source.bytes f (physicalLines source.bytes start)
      (beginning f.path source start false).reliable :=
    Import.stands_initial f source.bytes start
  have hfuel : (physicalLines source.bytes start).length < source.capacity + 1 := by
    have hle := length_linesFrom_le source.bytes start 0
    have hcapacity : source.bytes.length ≤ source.capacity := Nat.le_max_left ..
    rw [physicalLines]
    omega
  exact Import.breaksOrEnds hsettled ho (on_beginning f.path source start) hstands hfuel

theorem ofSource_of_scan_error {e : ImportError} (hmovable : source.immovable = none)
    (h : Import.scan settings (source.capacity + 1) (beginning path source start stopped) =
      .error e s) :
    ofSource settings path source start stopped =
      ⟨.error e, s.events.toList, s.cursor.stopped⟩ := by
  have hrun : Import.run settings (beginning path source start stopped) = .error e s := by
    rw [Import.run, Import.bind_apply, Import.get_apply]
    dsimp only
    rw [Import.bind_apply, show (beginning path source start stopped).cursor.source = source
      from rfl, h]
  rw [ofSource, Cursor.open?, hmovable]
  dsimp only
  rw [show Import.run settings ⟨⟨source, start, 0, stopped⟩, -1, { path }, #[]⟩ = _ from hrun]

theorem exists_ok_of_scan (hmovable : source.immovable = none)
    (h : Import.scan settings (source.capacity + 1) (beginning path source start stopped) =
      .ok () s) :
    ∃ file, (ofSource settings path source start stopped).result = .ok file :=
  ⟨_, congrArg (·.result) (ofSource_of_run hmovable (Import.run_of_scan h))⟩

end Scan

/-! ### Where the import is cut off -/

section Broken

variable {path : SourcePath} {source : Source} {bytes : Bytes} {start n : Nat} {reason : Text}
  {events : List Event} {s : Import.State} {e : ImportError}

/-- What has been reported when the import breaks off is a beginning of the events. -/
theorem events_prefix_of_broken (h : Import.BrokenOff (physicalLines bytes start) events
    (beginning path source start false) s e) : s.events.toList <+: events := by
  obtain ⟨done, later, reported, -, -, -, hevents, hprefix, -⟩ := h.before
  have hevents : s.events.toList = reported := hevents
  rwa [hevents]

/-- The import breaks off before the end of the bytes, or where it begins. -/
theorem le_last_of_broken (h : Import.BrokenOff (physicalLines bytes start) events
    (beginning path (.failing bytes n reason) start false) s e)
    (hfails : n ≤ (Source.failing bytes n reason).lastTouched s.cursor.position) :
    n ≤ max bytes.length start := by
  obtain ⟨done, later, reported, hlines, -, hposition, -⟩ := h.before
  have hposition : s.cursor.position = start + extent done := hposition
  have hwithin : s.cursor.position ≤ max bytes.length start := by
    rw [hposition, ← add_extent_physicalLines bytes start, hlines, extent_append]
    omega
  have htouched := (Source.failing bytes n reason).lastTouched_le s.cursor.position
  have hbytes : (Source.failing bytes n reason).bytes.length = bytes.length := rfl
  omega

/-- A line whose newline can be read lies before the place of the break. -/
theorem reportedIn_of_broken (h : Import.BrokenOff (physicalLines bytes start) events
    (beginning path (.failing bytes n reason) start false) s e)
    (hfails : n ≤ (Source.failing bytes n reason).lastTouched s.cursor.position)
    {l : PhysicalLine} (hl : l ∈ physicalLines bytes start) (hnewline : newline ∈ l.bytes)
    (hread : l.stop ≤ n) : l.ReportedIn s.events.toList := by
  obtain ⟨done, later, reported, hlines, -, hposition, hevents, -, hdone⟩ := h.before
  have hposition : s.cursor.position = start + extent done := hposition
  have hevents : s.events.toList = reported := hevents
  have hlaid : LaidOut bytes start 0 (done ++ later) := hlines ▸ laidOut_linesFrom bytes start 0
  rw [hlines] at hl
  rw [hevents]
  rcases List.mem_append.mp hl with hl | hl
  · exact hdone l hl
  · have hlt := lastTouched_lt_stop (s := .failing bytes n reason) (laidOut_append.mp hlaid).2 hl
      hnewline
    rw [← hposition] at hlt
    omega

end Broken

/-- A comment or a statement of a file comes of the line at its place. -/
theorem exists_line_of_ofBytes {f : FileContext} {bytes : Bytes} {start : Nat} {o : Outline}
    (ho : FileOutline (physicalLines bytes start) o) {file : Catalog}
    (hchunks : file.chunks.toList = o.chunksBehind f []) {c : Chunk} (hc : c ∈ file.allChunks)
    (hkind : c.kind ≠ .macroDef) :
    ∃ l ∈ physicalLines bytes start, l.kind ≠ .macroDef ∧ l.position = c.position ∧
      l.bytes = (Source.ofBytes bytes).lineAt c.position ∧ ∃ x, l.entry x = some c := by
  obtain ⟨entries, hmakes, hfound⟩ := Outline.exists_makes ho.sound f []
  rw [allChunks, hchunks, hfound] at hc
  obtain ⟨l, hl, hlkind, x, hentry⟩ := hmakes.exists_entry hc hkind
  rw [ho.lines_eq] at hl
  have hposition : l.position = c.position :=
    (PhysicalLine.place_of_entry hlkind hentry).2.1.symm
  refine ⟨l, hl, hlkind, hposition, ?_, x, hentry⟩
  rw [((laidOut_linesFrom bytes start 0).found_of_mem hl).2, ← hposition]
  rfl

/-- A failure of reading cuts an import off and does nothing else. -/
theorem cutOff_of_failing (mode : Mode) (includes : List Catalog) (path : SourcePath)
    (bytes : Bytes) (start n : Nat) (reason : Text) :
    ∃ file,
      (ofSource { mode, includes } path (.ofBytes bytes) start false).result = .ok file ∧
      Import.CutOff
        (ofSource { mode, includes } path (.failing bytes n reason) start false)
        (ofSource { mode, includes } path (.ofBytes bytes) start false)
        file bytes (max bytes.length start) n reason := by
  have hsettled : (Source.failing bytes n reason).Settled := ⟨rfl, rfl⟩
  obtain ⟨o, ho⟩ := exists_fileOutline (physicalLines bytes start)
  obtain ⟨file, hwhole, -, hchunks, -⟩ := ofSource_ofBytes ⟨path, mode, includes⟩ bytes start ho
  have hwhole : ofSource { mode, includes } path (.ofBytes bytes) start false = _ := hwhole
  refine ⟨file, congrArg (·.result) hwhole, ?_⟩
  have hon := on_beginning path (.failing bytes n reason) start
  rcases breaksOrEnds_beginning (f := ⟨path, mode, includes⟩) hsettled ho with
    ⟨e, s', hscan, hbroken⟩ | ⟨⟨s', hscan⟩, hends⟩
  · -- The scan breaks off where the source fails.
    have hcut := ofSource_of_scan_error hsettled.movable hscan
    have hon' := ((Import.governs_settled hsettled _).scan _).error hon hscan
    obtain ⟨rfl, hfails⟩ := hbroken.halts.of_failing hon'.1
    have hreports : (ofSource { mode, includes } path (.failing bytes n reason) start
        false).events = s'.events.toList := congrArg (·.events) hcut
    refine .of_error (le_last_of_broken hbroken hfails) (congrArg (·.result) hcut) ?_ ?_
    · rw [hwhole, hreports]
      exact (events_prefix_of_broken hbroken).trans (List.prefix_append ..)
    · intro c hc hkind hnewline hread
      obtain ⟨l, hl, hlkind, hposition, hbytes, x, hentry⟩ :=
        exists_line_of_ofBytes ho hchunks hc hkind
      rw [← hbytes] at hnewline hread
      rw [← hposition] at hread
      rw [hreports]
      exact reportedIn_of_broken hbroken hfails hl hnewline hread hlkind x c hentry
  · -- The scan has touched all that it could, so nothing of it fails.
    obtain ⟨file', hok⟩ := exists_ok_of_scan hsettled.movable hscan
    have hsame := ofSource_of_fixed hsettled.fixed hok
    have hsame : ofSource { mode, includes } path (.ofBytes bytes) start false = _ := hsame
    have hresult := congrArg (·.result) (hsame.symm.trans hwhole)
    obtain rfl : file' = file := Except.ok.inj hresult
    refine .of_ok ?_ hok (congrArg (·.events) hsame).symm
    have hnone : (Source.failing bytes n reason).failure?
        (start + extent (physicalLines bytes start)) = none := hends
    rw [Source.failure?_failing, add_extent_physicalLines] at hnone
    split at hnone
    · exact absurd hnone (by simp)
    · omega

end Catalog

end AsmCatalog
