/-
Runs of the program that fail.

A path may lead nowhere, to something that cannot be read, or to bytes.  A run stops at the
first of its files, in the order of includes and then inputs, that cannot be opened or cannot
be read to its end.  It has written nothing by then, and what it has reported is all that the
files before that one report.

Main definitions:
* `Event.isClosing` — an event that ends the import of a file or a whole run;
* `trouble?` — why what a path leads to cannot be imported;
* `ImportedFile.Complete` — the events of a file end with that of its catalog;
* `FailsAt` — a run that fails at one of its files.

Main statements:
* `importPath_eq_error_iff` — the import of one file fails with the trouble of the file;
* `Configuration.importAll_cases` — what the imports of a run give;
* `failsAt_first` — a run fails at the first file with trouble, and only then.
-/
import AsmCatalog.Proofs.Composition
import AsmCatalog.Proofs.ReadFailure

namespace AsmCatalog

/-! ### Events of an import that goes on -/

/-- An event that ends the import of a file, or a whole run. -/
def Event.isClosing : Event → Bool
  | imported .. => true
  | finished .. => true
  | _ => false

namespace Outline

theorem isClosing_of_mem_entry {entry : Option Chunk} {e : Event}
    (h : e ∈ (entry.map Chunk.event).toList) : e.isClosing = false := by
  cases entry with
  | none => exact absurd h (by simp)
  | some c =>
    obtain rfl := List.mem_singleton.mp h
    rfl

theorem isClosing_of_mem_events {x : LineContext} {o : Outline} {e : Event}
    (h : e ∈ o.events x) : e.isClosing = false := by
  induction o with
  | nil => exact absurd h List.not_mem_nil
  | line l next ih =>
    rcases List.mem_append.mp h with h | h
    · exact isClosing_of_mem_entry h
    · exact ih h
  | definition l body ended next ihb ihn =>
    rw [events, List.mem_append, List.mem_append, List.mem_append] at h
    rcases h with ((h | h) | h) | h
    · exact ihb h
    · split at h
      · exact absurd h List.not_mem_nil
      · obtain ⟨header, -, rfl⟩ := Option.map_eq_some_iff.mp (Option.mem_toList.mp h)
        rfl
    · exact isClosing_of_mem_entry h
    · exact ihn h

/-- The events of top-level chunks end nothing. -/
theorem isClosing_of_mem_eventsBehind {f : FileContext} {found : List Chunk} {o : Outline}
    {e : Event} (h : e ∈ o.eventsBehind f found) : e.isClosing = false := by
  induction o generalizing found with
  | nil => exact absurd h List.not_mem_nil
  | line l next ih =>
    rcases List.mem_append.mp h with h | h
    · exact isClosing_of_mem_events h
    · exact ih h
  | definition l body ended next _ ihn =>
    rcases List.mem_append.mp h with h | h
    · exact isClosing_of_mem_events h
    · exact ihn h

end Outline

/-! ### Sources that cannot be read -/

/-- A source does not change while it is read, and does not ask the import to stop. -/
structure Source.Steady (s : Source) : Prop where
  kept : s.replacement = none
  unasked : s.stopFrom = none

/-- A source that can be moved holds reliable bytes, or bytes that fail from some offset on. -/
theorem Source.Steady.eq_or {s : Source} (h : s.Steady) (hmovable : s.immovable = none) :
    s = .ofBytes s.bytes ∨ ∃ n reason, s = .failing s.bytes n reason := by
  obtain ⟨bytes, fault, stopFrom, replacement, immovable⟩ := s
  obtain ⟨rfl, rfl⟩ := h
  obtain rfl : immovable = none := hmovable
  cases fault with
  | none => exact .inl rfl
  | some f => exact .inr ⟨f.offset, f.reason, rfl⟩

namespace Catalog

variable {settings : Import.Settings} {path : SourcePath} {source : Source}

/-- A source whose first byte cannot be read is not imported, and nothing is reported. -/
theorem ofSource_of_failure?_zero {reason : Text} (hmovable : source.immovable = none)
    (h : source.failure? 0 = some reason) :
    ofSource settings path source 0 false = ⟨.error (.unread reason), [], false⟩ := by
  have hend : Import.reading Cursor.atEnd (beginning path source 0 false) =
      .error (.unread reason) (beginning path source 0 false) := by
    rw [Import.reading, Cursor.atEnd, show (beginning path source 0 false).cursor.source.failure?
      (beginning path source 0 false).cursor.position = some reason from h]
  have hscan : Import.scan settings (source.capacity + 1) (beginning path source 0 false) =
      .error (.unread reason) (beginning path source 0 false) := by
    rw [Import.scan, Import.bind_apply, hend]
  exact ofSource_of_scan_error hmovable hscan

/-- Bytes that cannot be read from some offset on are imported like reliable ones if they end
before it.  Otherwise the import fails, and what it has reported ends nothing. -/
theorem ofSource_failing_cases (mode : Mode) (includes : List Catalog) (path : SourcePath)
    (bytes : Bytes) (n : Nat) (reason : Text) :
    (n ≤ bytes.length ∧
        (ofSource { mode, includes } path (.failing bytes n reason) 0 false).result =
          .error (.unread reason) ∧
        ∀ e ∈ (ofSource { mode, includes } path (.failing bytes n reason) 0 false).events,
          e.isClosing = false) ∨
      (bytes.length < n ∧ ∃ file,
        ofSource { mode, includes } path (.ofBytes bytes) 0 false =
          ⟨.ok file, (ofSource { mode, includes } path (.failing bytes n reason) 0 false).events,
            false⟩ ∧
        (ofSource { mode, includes } path (.failing bytes n reason) 0 false).result =
          .ok file) := by
  have hsettled : (Source.failing bytes n reason).Settled := ⟨rfl, rfl⟩
  obtain ⟨o, ho⟩ := exists_fileOutline (physicalLines bytes 0)
  have hon := on_beginning path (.failing bytes n reason) 0
  rcases breaksOrEnds_beginning (f := ⟨path, mode, includes⟩) hsettled ho with
    ⟨e, s, hscan, hbroken⟩ | ⟨⟨s, hscan⟩, hends⟩
  · have hcut := ofSource_of_scan_error hsettled.movable hscan
    have hon' := ((Import.governs_settled hsettled _).scan _).error hon hscan
    obtain ⟨rfl, hfails⟩ := hbroken.halts.of_failing hon'.1
    have hle : n ≤ max bytes.length 0 := le_last_of_broken hbroken hfails
    refine .inl ⟨by omega, congrArg (·.result) hcut, fun e he => ?_⟩
    have hevents : (ofSource { mode, includes } path (.failing bytes n reason) 0 false).events =
        s.events.toList := congrArg (·.events) hcut
    rw [hevents] at he
    exact Outline.isClosing_of_mem_eventsBehind ((events_prefix_of_broken hbroken).subset he)
  · obtain ⟨file, hok⟩ := exists_ok_of_scan hsettled.movable hscan
    have hok : (ofSource { mode, includes } path (.failing bytes n reason) 0 false).result =
        .ok file := hok
    have hsame := ofSource_of_fixed hsettled.fixed hok
    refine .inr ⟨?_, file, hsame, hok⟩
    have hnone : (Source.failing bytes n reason).failure?
        (0 + extent (physicalLines bytes 0)) = none := hends
    rw [Source.failure?_failing, add_extent_physicalLines] at hnone
    split at hnone
    · exact absurd hnone (by simp)
    · omega

/-- A steady source that fails before the end of its bytes is not imported, and what is
reported of it ends nothing. -/
theorem ofSource_of_unread (hsteady : source.Steady) (hmovable : source.immovable = none)
    {reason : Text} (h : source.failure? source.bytes.length = some reason) (mode : Mode)
    (includes : List Catalog) (path : SourcePath) :
    (ofSource { mode, includes } path source 0 false).result = .error (.unread reason) ∧
      ∀ e ∈ (ofSource { mode, includes } path source 0 false).events, e.isClosing = false := by
  rcases hsteady.eq_or hmovable with hsource | ⟨n, reason', hsource⟩
  · rw [hsource] at h
    exact absurd h (by simp [Source.ofBytes, Source.failure?])
  · rw [hsource, Source.failure?_failing] at h
    split at h
    · obtain rfl := Option.some.inj h
      rw [hsource]
      rcases ofSource_failing_cases mode includes path source.bytes n reason' with
        ⟨-, hresult, hevents⟩ | ⟨hlt, -⟩
      · exact ⟨hresult, hevents⟩
      · have hle : n ≤ source.bytes.length := ‹_›
        omega
    · exact absurd h (by simp)

/-- A steady source that can be read to its end is imported, and what is reported of it ends
with its catalog. -/
theorem exists_ok_of_read (hsteady : source.Steady) (hmovable : source.immovable = none)
    (h : source.failure? source.bytes.length = none) (mode : Mode) (includes : List Catalog)
    (path : SourcePath) :
    ∃ file before, (ofSource { mode, includes } path source 0 false).result = .ok file ∧
      (∀ e ∈ before, e.isClosing = false) ∧
      (ofSource { mode, includes } path source 0 false).events =
        before ++ [.imported path file.chunks.size file.constants.length] := by
  obtain ⟨o, ho⟩ := exists_fileOutline (physicalLines source.bytes 0)
  obtain ⟨file, hwhole, -⟩ := ofSource_ofBytes ⟨path, mode, includes⟩ source.bytes 0 ho
  have hwhole : ofSource { mode, includes } path (.ofBytes source.bytes) 0 false = _ := hwhole
  have hclosing : ∀ e ∈ o.eventsBehind ⟨path, mode, includes⟩ [], e.isClosing = false :=
    fun e he => Outline.isClosing_of_mem_eventsBehind he
  rcases hsteady.eq_or hmovable with hsource | ⟨n, reason, hsource⟩
  · rw [hsource]
    exact ⟨file, _, congrArg (·.result) hwhole, hclosing, congrArg (·.events) hwhole⟩
  · rw [hsource, Source.failure?_failing] at h
    rw [hsource]
    rcases ofSource_failing_cases mode includes path source.bytes n reason with
      ⟨hle, -⟩ | ⟨-, file', hsame, hresult⟩
    · exact absurd ((if_pos hle).symm.trans h) (by simp)
    · rw [hsame] at hwhole
      obtain ⟨hfile, hevents, -⟩ := Import.Outcome.mk.inj hwhole
      obtain rfl := Except.ok.inj hfile
      exact ⟨file', _, hresult, hclosing, hevents⟩

end Catalog

namespace CommandLine

variable {a : Arguments} {c : Configuration} {opener : Opener} {mode : Mode}
  {includes : List Catalog} {path : SourcePath} {e : ImportError}

/-- Why what a path leads to cannot be imported: it cannot be opened, or it cannot be read
to its end. -/
def trouble? (path : SourcePath) : Except Text Source → Option ImportError
  | .error reason => some (.unopened path reason)
  | .ok source =>
    match source.immovable with
    | some reason => some (.unread reason)
    | none => (source.failure? source.bytes.length).map .unread

/-- Not even the first byte of what a path leads to can be read. -/
def OutOfReach : Except Text Source → Prop
  | .error _ => True
  | .ok source => source.immovable.isSome = true ∨ (source.failure? 0).isSome = true

/-- What a path leads to, if anything, is steady. -/
def LeadsSteadily (opener : Opener) (path : SourcePath) : Prop :=
  ∀ source, opener path = .ok source → source.Steady

/-- The events of a file end with that of its catalog. -/
def ImportedFile.Complete (i : ImportedFile) : Prop :=
  ∃ before, (∀ e ∈ before, e.isClosing = false) ∧
    i.events = before ++ [.imported i.path i.file.chunks.size i.file.constants.length]

/-- A file in trouble is not imported, and nothing that it reports ends an import. -/
theorem importPath_of_trouble (hsteady : LeadsSteadily opener path)
    (h : trouble? path (opener path) = some e) (mode : Mode) (includes : List Catalog) :
    (importPath opener { mode, includes } path).result = .error e ∧
      (∀ event ∈ (importPath opener { mode, includes } path).events,
        event.isClosing = false) ∧
      (OutOfReach (opener path) → (importPath opener { mode, includes } path).events = []) := by
  rw [importPath]
  cases hopen : opener path with
  | error reason =>
    rw [hopen] at h
    obtain rfl := Option.some.inj h
    exact ⟨rfl, by simp, fun _ => rfl⟩
  | ok source =>
    rw [hopen, trouble?] at h
    cases hmovable : source.immovable with
    | some reason =>
      simp only [hmovable] at h
      obtain rfl := Option.some.inj h
      have hnothing : Catalog.ofSource { mode, includes } path source 0 false =
          ⟨.error (.unread reason), [], false⟩ := by
        rw [Catalog.ofSource, Cursor.open?, hmovable]
      simp only [hnothing]
      exact ⟨trivial, by simp, fun _ => trivial⟩
    | none =>
      simp only [hmovable] at h
      obtain ⟨reason, hfails, rfl⟩ := Option.map_eq_some_iff.mp h
      obtain ⟨hresult, hevents⟩ :=
        Catalog.ofSource_of_unread (hsteady source hopen) hmovable hfails mode includes path
      refine ⟨hresult, hevents, fun hreach => ?_⟩
      rcases hreach with himmovable | hfirst
      · rw [hmovable] at himmovable
        exact absurd himmovable (by simp)
      · obtain ⟨reason', hfirst⟩ := Option.isSome_iff_exists.mp hfirst
        exact congrArg (·.events) (Catalog.ofSource_of_failure?_zero hmovable hfirst)

/-- A file without trouble is imported. -/
theorem exists_ok_of_untroubled (hsteady : LeadsSteadily opener path)
    (h : trouble? path (opener path) = none) (mode : Mode) (includes : List Catalog) :
    ∃ file, (importPath opener { mode, includes } path).result = .ok file ∧
      ImportedFile.Complete ⟨path, file, (importPath opener { mode, includes } path).events⟩ := by
  rw [importPath]
  cases hopen : opener path with
  | error reason =>
    rw [hopen] at h
    exact absurd h (by simp [trouble?])
  | ok source =>
    rw [hopen, trouble?] at h
    cases hmovable : source.immovable with
    | some reason => exact absurd h (by simp [hmovable])
    | none =>
      simp only [hmovable, Option.map_eq_none_iff] at h
      obtain ⟨file, before, hresult, hclosing, hevents⟩ :=
        Catalog.exists_ok_of_read (hsteady source hopen) hmovable h mode includes path
      exact ⟨file, hresult, before, hclosing, hevents⟩

/-- An import fails with the trouble of its file. -/
theorem importPath_eq_error_iff (hsteady : LeadsSteadily opener path) :
    (importPath opener { mode, includes } path).result = .error e ↔
      trouble? path (opener path) = some e := by
  constructor
  · intro hfails
    cases htrouble : trouble? path (opener path) with
    | none =>
      obtain ⟨file, hok, -⟩ := exists_ok_of_untroubled hsteady htrouble mode includes
      exact absurd (hok.symm.trans hfails) (by simp)
    | some e' =>
      have hfails' := (importPath_of_trouble hsteady htrouble mode includes).1
      rw [Except.error.inj (hfails'.symm.trans hfails)]
  · exact fun htrouble => (importPath_of_trouble hsteady htrouble mode includes).1

/-! ### The imports of a run -/

/-- The includes that the file at place `k` of a run sees, given the files before it. -/
def Configuration.seenAt (c : Configuration) (items : List ImportedFile) (k : Nat) :
    List Catalog :=
  (items.take (min k c.includes.length)).map (·.file)

namespace Configuration

variable {items before behind : List ImportedFile} {k : Nat}

/-- An include sees all files before it. -/
theorem seenAt_of_le (h : items.length ≤ c.includes.length) (k : Nat) :
    c.seenAt items k = (items.take k).map (·.file) := by
  have htake : items.take (min k c.includes.length) = items.take k := by
    rw [List.take_eq_take_iff]
    omega
  rw [seenAt, htake]

/-- An input sees the includes alone. -/
theorem seenAt_append (h : before.length = c.includes.length) (k : Nat) :
    c.seenAt (before ++ behind) k = (before.take k).map (·.file) := by
  have htake : (before ++ behind).take (min k c.includes.length) = before.take k := by
    rw [List.take_append_of_le_length (by omega), List.take_eq_take_iff]
    omega
  rw [seenAt, htake]

/-- The includes and the inputs of a run are each imported as if they were alone. -/
theorem alone_append (h : before.length = c.includes.length)
    (hbefore : InTurn opener mode id [] before)
    (hbehind : InTurn opener mode (fun _ => before.map (·.file)) [] behind) {i : ImportedFile}
    (hk : (before ++ behind)[k]? = some i) :
    i.Alone opener mode (c.seenAt (before ++ behind) k) := by
  rw [seenAt_append h]
  rcases Nat.lt_or_ge k before.length with hlt | hge
  · rw [List.getElem?_append_left hlt] at hk
    exact hbefore.alone hk
  · rw [List.getElem?_append_right hge] at hk
    rw [List.take_of_length_le hge]
    exact hbehind.alone hk

/-- The files of a run are imported in turn to the last one, or up to the first whose import
fails. -/
theorem importAll_cases (c : Configuration) (opener : Opener) :
    ∃ items : List ImportedFile,
      (∀ (k : Nat) (i : ImportedFile), items[k]? = some i →
        i.Alone opener c.mode (c.seenAt items k)) ∧
      ((items.map (·.path) = c.includes ++ c.inputs ∧
          ∃ files, c.importAll opener = ⟨items.flatMap (·.events), .ok files⟩) ∨
        ∃ path rest e, c.includes ++ c.inputs = items.map (·.path) ++ path :: rest ∧
          (importPath opener { mode := c.mode, includes := c.seenAt items items.length }
            path).result = .error e ∧
          c.importAll opener =
            ⟨items.flatMap (·.events) ++
              (importPath opener { mode := c.mode, includes := c.seenAt items items.length }
                path).events, .error e⟩) := by
  obtain ⟨before, hbefore, ⟨hpaths, hfirst⟩ | ⟨path, rest, e, hpaths, hfails, hfirst⟩⟩ :=
    importEach_cases opener c.mode id [] c.includes
  · have hlength : before.length = c.includes.length := by rw [← hpaths, List.length_map]
    rw [List.nil_append] at hfirst
    obtain ⟨behind, hbehind, ⟨hpaths', hsecond⟩ | ⟨path, rest, e, hpaths', hfails, hsecond⟩⟩ :=
      importEach_cases opener c.mode (fun _ => before.map (·.file)) [] c.inputs
    · refine ⟨before ++ behind, fun k i hk => alone_append hlength hbefore hbehind hk, .inl ?_⟩
      refine ⟨by rw [List.map_append, hpaths, hpaths'],
        ⟨before.map (·.file), behind.map (·.file)⟩, ?_⟩
      simp only [importAll, hfirst, hsecond, List.flatMap_append]
      rfl
    · -- An input fails, which sees the includes and nothing else.
      refine ⟨before ++ behind, fun k i hk => alone_append hlength hbefore hbehind hk, .inr ?_⟩
      have hseen : c.seenAt (before ++ behind) (before ++ behind).length =
          before.map (·.file) := by
        rw [seenAt_append hlength, List.length_append, List.take_of_length_le (by omega)]
      refine ⟨path, rest, e, ?_, hseen ▸ hfails, ?_⟩
      · rw [List.map_append, hpaths, hpaths', List.append_assoc]
      · rw [hseen]
        simp only [importAll, hfirst, hsecond, List.flatMap_append, List.append_assoc]
        rfl
  · -- An include fails, which sees all that were imported before it.
    have hlength : before.length ≤ c.includes.length := by
      rw [hpaths, List.length_append, List.length_map]
      omega
    refine ⟨before, fun k i hk => ?_, .inr ⟨path, rest ++ c.inputs, e, ?_, ?_, ?_⟩⟩
    · rw [seenAt_of_le hlength]
      exact hbefore.alone hk
    · rw [hpaths, List.append_assoc, List.cons_append]
    · rw [seenAt_of_le hlength, List.take_length]
      exact hfails
    · rw [seenAt_of_le hlength, List.take_length]
      simp only [importAll, hfirst]
      rfl

end Configuration

/-! ### Failed runs -/

/-- A run that fails at the file at `path`, behind the files `items` and before those at
`rest`. -/
structure FailsAt (opener : Opener) (c : Configuration) (report : Report)
    (items : List ImportedFile) (path : SourcePath) (rest : List SourcePath)
    (started : List Event) (e : ImportError) : Prop where
  /-- It is the first file in trouble. -/
  listed : c.includes ++ c.inputs = items.map (·.path) ++ path :: rest
  untroubled : ∀ i ∈ items, trouble? i.path (opener i.path) = none
  troubled : trouble? path (opener path) = some e
  /-- The run gives its error, and has written nothing. -/
  error : report.error? = some (.importFailed e)
  unwritten : report.written = []
  /-- It has reported all that the files before it report, each as if it were alone, and
  what its own import reports until it fails. -/
  events : report.events = items.flatMap (·.events) ++ started
  alone (k : Nat) (i : ImportedFile) : items[k]? = some i →
    i.Alone opener c.mode (c.seenAt items k)
  complete : ∀ i ∈ items, i.Complete
  own : (importPath opener { mode := c.mode, includes := c.seenAt items items.length }
    path).events = started
  broken : ∀ event ∈ started, event.isClosing = false
  unbegun : OutOfReach (opener path) → started = []
  /-- It has not reported that it is finished. -/
  unfinished (includes inputs : Nat) : .finished includes inputs ∉ report.events

namespace ImportedFile

variable {i : ImportedFile}

/-- What has been imported was not in trouble, and has reported everything. -/
theorem Alone.untroubled (h : i.Alone opener mode includes)
    (hsteady : LeadsSteadily opener i.path) :
    trouble? i.path (opener i.path) = none ∧ i.Complete := by
  have huntroubled : trouble? i.path (opener i.path) = none := by
    cases htrouble : trouble? i.path (opener i.path) with
    | none => rfl
    | some e =>
      have hfails : (importPath opener { mode, includes } i.path).result = .error e :=
        (importPath_eq_error_iff hsteady).mpr htrouble
      exact absurd (hfails.symm.trans h.result) (by simp)
  obtain ⟨file, hresult, hcomplete⟩ :=
    exists_ok_of_untroubled hsteady huntroubled mode includes
  obtain rfl : file = i.file := Except.ok.inj (hresult.symm.trans h.result)
  rw [h.events] at hcomplete
  exact ⟨huntroubled, hcomplete⟩

/-- Files do not report that a run is finished. -/
theorem Complete.finished_notMem (h : i.Complete) (includes inputs : Nat) :
    .finished includes inputs ∉ i.events := by
  obtain ⟨before, hbefore, hevents⟩ := h
  rw [hevents, List.mem_append, not_or]
  exact ⟨fun hmem => absurd (hbefore _ hmem) (by simp [Event.isClosing]), by simp⟩

end ImportedFile

/-- A run fails in an import exactly if one of its files cannot be opened or read, and then at
the first of them. -/
theorem failsAt_first (hasks : Asks a c)
    (hsteady : ∀ path ∈ c.includes ++ c.inputs, LeadsSteadily opener path) :
    ((∃ e, (run a opener).error? = some (.importFailed e)) ↔
        ∃ path ∈ c.includes ++ c.inputs, (trouble? path (opener path)).isSome = true) ∧
      ∀ e, (run a opener).error? = some (.importFailed e) →
        ∃ items path rest started,
          FailsAt opener c (run a opener) items path rest started e := by
  obtain ⟨items, halone, hcases⟩ := c.importAll_cases opener
  have hlisted : ∀ i ∈ items, i.path ∈ c.includes ++ c.inputs := by
    intro i hi
    have hpath : i.path ∈ items.map (·.path) := List.mem_map_of_mem hi
    rcases hcases with ⟨hpaths, -⟩ | ⟨path, rest, e, hpaths, -⟩
    · exact hpaths ▸ hpath
    · rw [hpaths]
      exact List.mem_append_left _ hpath
  have hgood : ∀ i ∈ items, trouble? i.path (opener i.path) = none ∧ i.Complete := by
    intro i hi
    obtain ⟨k, hk⟩ := List.mem_iff_getElem?.mp hi
    exact (halone k i hk).untroubled (hsteady i.path (hlisted i hi))
  rcases hcases with ⟨hpaths, files, hall⟩ | ⟨path, rest, e, hpaths, hfails, hall⟩
  · -- All files have been imported, so that none of them is in trouble.
    have herror : (run a opener).error? = none := by rw [run_of_ok hasks.valid hall]
    refine ⟨iff_of_false ?_ ?_, fun e he => absurd (herror.symm.trans he) (by simp)⟩
    · rintro ⟨e, he⟩
      exact absurd (herror.symm.trans he) (by simp)
    · rintro ⟨path, hpath, htrouble⟩
      rw [← hpaths] at hpath
      obtain ⟨i, hi, rfl⟩ := List.mem_map.mp hpath
      rw [(hgood i hi).1] at htrouble
      exact absurd htrouble (by simp)
  · have hmem : path ∈ c.includes ++ c.inputs := by
      rw [hpaths]
      exact List.mem_append_right _ List.mem_cons_self
    have htrouble := (importPath_eq_error_iff (hsteady path hmem)).mp hfails
    obtain ⟨-, hbroken, hunbegun⟩ := importPath_of_trouble (hsteady path hmem) htrouble c.mode
      (c.seenAt items items.length)
    have hrun := run_of_error hasks.valid hall
    refine ⟨iff_of_true ⟨e, by rw [hrun]⟩ ⟨path, hmem, by rw [htrouble]; rfl⟩, fun e' he' => ?_⟩
    obtain rfl : e = e' := by
      rw [hrun] at he'
      exact RunError.importFailed.inj (Option.some.inj he')
    rw [hrun]
    refine ⟨items, path, rest, _, hpaths, fun i hi => (hgood i hi).1, htrouble, rfl, rfl, rfl,
      halone, fun i hi => (hgood i hi).2, rfl, hbroken, hunbegun, fun includes inputs hmem => ?_⟩
    rcases List.mem_append.mp hmem with hmem | hmem
    · obtain ⟨i, hi, hevent⟩ := List.mem_flatMap.mp hmem
      exact (hgood i hi).2.finished_notMem includes inputs hevent
    · exact absurd (hbroken _ hmem) (by simp [Event.isClosing])

/-- What paths lead to in a tree is steady. -/
theorem leadsSteadily_openPath (tree : FileTree) (path : SourcePath) :
    LeadsSteadily tree.openPath path := by
  intro source h
  rw [FileTree.openPath] at h
  split at h
  · obtain rfl := Except.ok.inj h
    exact ⟨rfl, rfl⟩
  · obtain rfl := Except.ok.inj h
    exact ⟨rfl, rfl⟩
  · exact absurd h (by simp)

/-- A file, a directory, and a path that leads nowhere. -/
def troubledArguments : Arguments where
  includes := [⟨['m']⟩]
  inputs := [⟨['d', '/', 'c']⟩, ⟨['d']⟩, ⟨['m']⟩, ⟨['x']⟩]
  format? := some .json

theorem failsAt_first_sharedTree :
    ∃ c, Asks troubledArguments c ∧
      (∀ path ∈ c.includes ++ c.inputs, LeadsSteadily sharedTree.openPath path) ∧
      ∃ items path rest started,
        FailsAt sharedTree.openPath c (run troubledArguments sharedTree.openPath) items path rest
          started (.unread "Is a directory (os error 21)".toList) := by
  have hfails : (run troubledArguments sharedTree.openPath).error? =
      some (.importFailed (.unread "Is a directory (os error 21)".toList)) := by decide +kernel
  obtain ⟨-, hfirst⟩ := failsAt_first (a := troubledArguments) ⟨rfl, rfl⟩
    fun path _ => leadsSteadily_openPath sharedTree path
  exact ⟨_, ⟨rfl, rfl⟩, fun path _ => leadsSteadily_openPath sharedTree path, hfirst _ hfails⟩

end CommandLine

end AsmCatalog
