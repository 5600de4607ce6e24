/-
Imports of a source that stays as it is.

Such a source may still fail from some offset on, or ask the import to stop, and the
time may be over.  An import that succeeds all the same never noticed any of this:
it gives what an import of the same bytes gives when nothing can interrupt it.

Main definitions:
* `Source.Fixed` — a source keeps its bytes;
* `Import.SucceedsAs` — when one action succeeds, another one does the same over
  reliable bytes.

Main statements:
* `Catalog.ofSource_of_fixed` — a successful import of a fixed source is the import of
  its bytes;
* `Catalog.exists_makes_of_fixed` — it gives what the outline of the lines makes.
-/
import AsmCatalog.Proofs.Lockstep
import AsmCatalog.Proofs.ReliableImport

namespace AsmCatalog

/-- A source keeps its bytes: they are replaced by themselves if at all. -/
def Source.Fixed (s : Source) : Prop := ∀ r, s.replacement = some r → r.bytes = s.bytes

theorem Source.fixed_ofBytes (bytes : Bytes) : (Source.ofBytes bytes).Fixed :=
  fun _ h => absurd h (by simp [Source.ofBytes])

/-- A source that keeps its bytes has them after any move. -/
theorem Source.Fixed.moved {s : Source} (h : s.Fixed) (offset : Nat) :
    (s.moved offset).bytes = s.bytes ∧ (s.moved offset).Fixed := by
  rw [Source.moved]
  split
  · rename_i r hr
    split
    · exact ⟨h r hr, fun _ hnone => absurd hnone (by simp)⟩
    · exact ⟨rfl, h⟩
  · exact ⟨rfl, h⟩

theorem Source.Fixed.capacity_eq {s : Source} (h : s.Fixed) :
    s.capacity = (Source.ofBytes s.bytes).capacity := by
  rw [Source.capacity, Source.capacity]
  cases hr : s.replacement with
  | none => rfl
  | some r => simp [h r hr, Source.ofBytes]

/-- The cursor over the same bytes when they are reliable. -/
def Cursor.reliable (c : Cursor) : Cursor :=
  { c with source := .ofBytes c.source.bytes, stopped := false }

namespace Import

/-- The state over the same bytes when they are reliable. -/
def State.reliable (s : State) : State := { s with cursor := s.cursor.reliable }

/-- A step of reading that succeeds over a fixed source does the same over reliable
bytes. -/
def Persists {α : Type} (r : Reading α) : Prop :=
  ∀ c a c', c.source.Fixed → r c = .ok (a, c') →
    r c.reliable = .ok (a, c'.reliable) ∧ c'.source.Fixed

/-- When `m` succeeds over a fixed source, `m'` does the same over reliable bytes. -/
def SucceedsAs {α : Type} (m m' : Step α) : Prop :=
  ∀ s a s', s.cursor.source.Fixed → m s = .ok a s' →
    m' s.reliable = .ok a s'.reliable ∧ s'.cursor.source.Fixed

/-! ### Steps of reading -/

theorem failure?_reliable (c : Cursor) (offset : Nat) :
    c.reliable.source.failure? offset = none := rfl

theorem persists_atEnd : Persists Cursor.atEnd := by
  intro c a c' hfixed h
  rw [Cursor.atEnd] at h
  split at h
  · exact absurd h (by simp)
  · obtain ⟨rfl, rfl⟩ := Prod.mk.inj (Except.ok.inj h)
    exact ⟨rfl, hfixed⟩

theorem persists_readLine : Persists Cursor.readLine := by
  intro c a c' hfixed h
  have hline : c.reliable.source.lineAt c.reliable.position = c.source.lineAt c.position := rfl
  rw [Cursor.readLine] at h ⊢
  rw [failure?_reliable, hline]
  split at h
  · exact absurd h (by simp)
  · simp only [] at h ⊢
    split at h
    · rename_i hempty
      obtain ⟨rfl, rfl⟩ := Prod.mk.inj (Except.ok.inj h)
      rw [if_pos hempty]
      exact ⟨rfl, hfixed⟩
    · rename_i hempty
      obtain ⟨rfl, rfl⟩ := Prod.mk.inj (Except.ok.inj h)
      rw [if_neg hempty]
      exact ⟨rfl, hfixed⟩

theorem persists_seek (offset : Nat) : Persists (Cursor.seek offset) := by
  intro c a c' hfixed h
  obtain ⟨hbytes, hmoved⟩ := Source.Fixed.moved hfixed offset
  rw [Cursor.seek] at h
  split at h
  · exact absurd h (by simp)
  · obtain ⟨-, rfl⟩ := Prod.mk.inj (Except.ok.inj h)
    refine ⟨?_, hmoved⟩
    simp only [Cursor.reliable, hbytes]
    rfl

/-! ### Actions of the import -/

/-- The settings without a time limit that is over. -/
def Settings.unlimited (settings : Settings) : Settings := { settings with timeOver := false }

/-- A cursor over a fixed source, and the cursor over the same bytes when they are
reliable. -/
def Steadies (c d : Cursor) : Prop := c.source.Fixed ∧ d = c.reliable

theorem Persists.echoes {α : Type} {r : Reading α} (h : Persists r) :
    Echoes Steadies False r r where
  ok hc hr := by
    obtain ⟨hfixed, rfl⟩ := hc
    obtain ⟨hr', hfixed'⟩ := h _ _ _ hfixed hr
    exact ⟨_, hr', hfixed', rfl⟩
  error hfailing := hfailing.elim

theorem Follows.succeedsAs {α : Type} {m m' : Step α} (h : Follows Steadies False m m') :
    SucceedsAs m m' := by
  intro s a s' hfixed hm
  obtain ⟨d, hm', hfixed', rfl⟩ := h.ok ⟨hfixed, rfl⟩ hm
  exact ⟨hm', hfixed'⟩

/-- Where an import was not interrupted, it would go on without limits too. -/
theorem follows_unlimited (settings : Settings) :
    Follows Steadies False (checkInterrupt settings) (checkInterrupt settings.unlimited) where
  ok {s s' _ a} hd h := by
    -- A check does nothing to the state, so that the unlimited one has the same result.
    have hs : s' = s := by
      rw [checkInterrupt, bind_apply, get_apply] at h
      simp only [] at h
      split at h
      · cases h
      · split at h
        · cases h
        · exact (EStateM.Result.ok.inj h).2.symm
    subst hs
    obtain ⟨hfixed, rfl⟩ := hd
    exact ⟨_, rfl, hfixed, rfl⟩
  error hfailing := hfailing.elim

/-- Where an import of a fixed source succeeds, the import of its bytes is in lockstep. -/
theorem lockstep_reliable (settings : Settings) :
    Lockstep Steadies False settings settings.unlimited where
  position hd := hd.2 ▸ rfl
  lastLength hd := hd.2 ▸ rfl
  capacity hd := hd.2 ▸ hd.1.capacity_eq.symm
  atEnd := persists_atEnd.echoes
  readLine := persists_readLine.echoes
  seek offset := (persists_seek offset).echoes
  mode := rfl
  visible _ := rfl
  interrupt := follows_unlimited settings

theorem SucceedsAs.reading {α : Type} {r : Reading α} (h : Persists r) :
    SucceedsAs (reading r) (reading r) :=
  (Follows.reading h.echoes).succeedsAs

theorem succeedsAs_peekLine : SucceedsAs (reading Cursor.peekLine) (reading Cursor.peekLine) :=
  (Follows.reading (lockstep_reliable {}).peekLine).succeedsAs

theorem succeedsAs_lineAt (start : Nat) : SucceedsAs (lineAt start) (lineAt start) :=
  ((lockstep_reliable {}).lineAt start).succeedsAs

theorem succeedsAs_chunk (settings : Settings) (fuel : Nat) :
    SucceedsAs (chunk settings (body settings fuel []))
      (chunk settings.unlimited (body settings.unlimited fuel [])) :=
  have h := lockstep_reliable settings
  (h.chunk (h.body fuel [])).succeedsAs

theorem succeedsAs_run (settings : Settings) : SucceedsAs (run settings) (run settings.unlimited) :=
  (lockstep_reliable settings).run.succeedsAs

/-- The context in which a file is imported. -/
def Settings.context (settings : Settings) (path : SourcePath) : FileContext :=
  ⟨path, settings.mode, settings.includes⟩

end Import

namespace Catalog

variable {settings : Import.Settings} {path : SourcePath} {source : Source} {start : Nat}
  {stopped : Bool} {file : Catalog}

theorem exists_run_of_ok (h : (ofSource settings path source start stopped).result = .ok file) :
    ∃ s, Import.run settings ⟨⟨source, start, 0, stopped⟩, -1, { path }, #[]⟩ = .ok () s ∧
      s.catalog = file ∧
      (ofSource settings path source start stopped).events = s.events.toList := by
  have hopen : source.immovable = none := by
    cases himmovable : source.immovable with
    | none => rfl
    | some reason => simp [ofSource, Cursor.open?, himmovable] at h
  have hcursor : Cursor.open? source start stopped = .ok ⟨source, start, 0, stopped⟩ := by
    rw [Cursor.open?, hopen]
  rw [ofSource, hcursor] at h ⊢
  simp only [] at h ⊢
  cases hrun : Import.run settings ⟨⟨source, start, 0, stopped⟩, -1, { path }, #[]⟩ with
  | ok u s =>
    rw [hrun] at h
    exact ⟨s, rfl, Except.ok.inj h, rfl⟩
  | error e s =>
    rw [hrun] at h
    exact absurd h (by simp)

/-- An import of a fixed source that succeeds gives what the import of its bytes gives. -/
theorem ofSource_of_fixed (hfixed : source.Fixed)
    (h : (ofSource settings path source start stopped).result = .ok file) :
    ofSource settings.unlimited path (.ofBytes source.bytes) start false =
      ⟨.ok file, (ofSource settings path source start stopped).events, false⟩ := by
  obtain ⟨s, hrun, rfl, hevents⟩ := exists_run_of_ok h
  obtain ⟨hrun', -⟩ := Import.succeedsAs_run settings _ () s hfixed hrun
  rw [hevents]
  exact ofSource_of_run rfl hrun'

/-- Reliable bytes are imported, whatever they are. -/
theorem exists_ok_ofBytes (path : SourcePath) (mode : Mode) (includes : List Catalog)
    (bytes : Bytes) (start : Nat) :
    ∃ file, (ofSource { mode, includes } path (.ofBytes bytes) start false).result =
      .ok file := by
  obtain ⟨o, ho⟩ := exists_fileOutline (physicalLines bytes start)
  obtain ⟨file, hfile, -⟩ := ofSource_ofBytes ⟨path, mode, includes⟩ bytes start ho
  exact ⟨file, congrArg (·.result) hfile⟩

/-- What an import of a fixed source gives, if it succeeds, is what the outline of the
lines makes. -/
theorem exists_makes_of_fixed (hfixed : source.Fixed)
    (h : (ofSource settings path source start stopped).result = .ok file) :
    ∃ o entries, FileOutline (physicalLines source.bytes start) o ∧
      o.Makes (settings.context path) entries ∧ file.chunks.toList = present entries := by
  obtain ⟨o, ho⟩ := exists_fileOutline (physicalLines source.bytes start)
  obtain ⟨file', hfile', -, hchunks, -⟩ :=
    ofSource_ofBytes (settings.context path) source.bytes start ho
  have hsame := (ofSource_of_fixed hfixed h).symm.trans hfile'
  obtain rfl : file = file' := Except.ok.inj (Import.Outcome.mk.inj hsame).1
  obtain ⟨entries, hmakes, hfound⟩ := Outline.exists_makes ho.sound (settings.context path) []
  exact ⟨o, entries, ho, hmakes, hchunks.trans hfound⟩

end Catalog

end AsmCatalog
