/-
Imports that break off.

An import of a source that keeps its bytes can break off before any line: the source fails
there, or it has asked the import to stop.  What was done before is what an import does that
nothing interrupts, so the events are a beginning of its events.  This is followed along the
outline of the lines, as the import is that succeeds.

Main definitions:
* `Source.Settled` — a source that can be moved and keeps its bytes;
* `Import.Halts` — why an import breaks off in a state;
* `Import.BrokenOff` — what an import has done when it breaks off.

Main statements:
* `Import.chunk_error` — a dispatch breaks off before its line or inside its body;
* `Import.body_error` — where the body of a macro breaks off;
* `Import.breaksOrEnds` — where a scan breaks off, and that it reads up to the end if it
  does not.
-/
import AsmCatalog.Proofs.Dispatch
import AsmCatalog.Proofs.Failure
import AsmCatalog.Proofs.FixedSource

namespace AsmCatalog

/-! ### Settled sources -/

/-- A source can be moved and keeps its bytes. -/
structure Source.Settled (s : Source) : Prop where
  movable : s.immovable = none
  kept : s.replacement = none

namespace Source

variable {s : Source}

theorem Settled.moved (h : s.Settled) (offset : Nat) : s.moved offset = s := by
  rw [Source.moved, h.kept]

theorem Settled.fixed (h : s.Settled) : s.Fixed :=
  fun r hr => absurd (h.kept.symm.trans hr) (by simp)

/-- Such a source stays the same. -/
theorem Settled.movable_eq (h : s.Settled) : Movable (· = s) where
  movable hs := hs ▸ h.movable
  moved offset hs := by
    rw [hs]
    exact h.moved offset

/-- A source that fails at some offset fails behind it too. -/
theorem failure?_mono {m n : Nat} {reason : Text} (h : s.failure? m = some reason)
    (hle : m ≤ n) : s.failure? n = some reason := by
  rw [failure?] at h ⊢
  obtain ⟨f, hf, hreason⟩ := Option.bind_eq_some_iff.mp h
  refine Option.bind_eq_some_iff.mpr ⟨f, hf, ?_⟩
  split at hreason
  · rw [if_pos (Nat.le_trans ‹_› hle)]
    exact hreason
  · exact absurd hreason (by simp)

theorem le_lastTouched (s : Source) (position : Nat) : position ≤ s.lastTouched position := by
  rw [lastTouched]
  split
  · have hpos := List.length_pos_of_mem ‹newline ∈ s.lineAt position›
    omega
  · exact Nat.le_add_right ..

end Source

namespace Import

/-! ### Why an import breaks off -/

/-- An import breaks off in this state with this error: the source fails before the line at
the cursor has been read, or the import has been asked to stop. -/
inductive Halts (s : State) : ImportError → Prop where
  | unread {reason : Text}
      (hfails : s.cursor.source.failure? (s.cursor.source.lastTouched s.cursor.position) =
        some reason) : Halts s (.unread reason)
  | cancelled (hstopped : s.cursor.stopped = true) : Halts s (.cancelled s.catalog.path s.line)

section Halts

variable {s s' : State} {e : ImportError}

theorem halts_of_atEnd (h : reading Cursor.atEnd s = .error e s') : s' = s ∧ Halts s e := by
  obtain ⟨reason, hread, rfl, rfl⟩ := reading_eq_error h
  rw [Cursor.atEnd] at hread
  split at hread
  · obtain rfl := Except.error.inj hread
    exact ⟨rfl, .unread (Source.failure?_mono ‹_› (Source.le_lastTouched _ _))⟩
  · exact absurd hread (by simp)

theorem failure?_of_readLine_error {c : Cursor} {reason : Text}
    (h : c.readLine = .error reason) :
    c.source.failure? (c.source.lastTouched c.position) = some reason := by
  rw [Cursor.readLine] at h
  cases hfails : c.source.failure? (c.source.lastTouched c.position) with
  | none =>
    rw [hfails] at h
    dsimp only at h
    split at h
    · exact absurd h (by simp)
    · exact absurd h (by simp)
  | some reason' =>
    rw [hfails] at h
    rw [Except.error.inj h]

theorem halts_of_readLine (h : reading Cursor.readLine s = .error e s') :
    s' = s ∧ Halts s e := by
  obtain ⟨reason, hread, rfl, rfl⟩ := reading_eq_error h
  exact ⟨rfl, .unread (failure?_of_readLine_error hread)⟩

theorem failure?_of_readLine {text : Option Text} (h : reading Cursor.readLine s = .ok text s') :
    s.cursor.source.failure? (s.cursor.source.lastTouched s.cursor.position) = none := by
  rw [reading, Cursor.readLine] at h
  cases hfails : s.cursor.source.failure? (s.cursor.source.lastTouched s.cursor.position) with
  | none => rfl
  | some reason =>
    rw [hfails] at h
    exact absurd h (by simp)

theorem halts_of_peekLine (hmovable : s.cursor.source.immovable = none)
    (h : reading Cursor.peekLine s = .error e s') : s' = s ∧ Halts s e := by
  obtain ⟨reason, hpeek, rfl, hs'⟩ := reading_eq_error h
  refine ⟨hs', ?_⟩
  rw [Cursor.peekLine] at hpeek
  cases hread : Cursor.readLine s.cursor with
  | error reason' =>
    rw [hread] at hpeek
    obtain rfl := Except.error.inj hpeek
    exact .unread (failure?_of_readLine_error hread)
  | ok found =>
    -- The line was read from the same source, which can still be moved.
    have hsource : found.2.source = s.cursor.source := by
      rw [Cursor.readLine] at hread
      split at hread
      · exact absurd hread (by simp)
      · dsimp only at hread
        split at hread
        · rw [← Except.ok.inj hread]
        · rw [← Except.ok.inj hread]
          rfl
    rw [hread] at hpeek
    dsimp only at hpeek
    rw [Cursor.seek, hsource, hmovable] at hpeek
    exact absurd hpeek (by simp)

theorem halts_of_checkInterrupt {f : FileContext}
    (h : checkInterrupt f.settings s = .error e s') : s' = s ∧ Halts s e := by
  rw [checkInterrupt, bind_apply, get_apply] at h
  dsimp only at h
  split at h
  · obtain ⟨rfl, rfl⟩ := EStateM.Result.error.inj h
    exact ⟨rfl, .cancelled ‹_›⟩
  · rw [if_neg (by simp [FileContext.settings])] at h
    exact absurd h (by simp [pure_apply])

end Halts

/-! ### Dispatches -/

section Chunk

variable {bytes : Bytes} {f : FileContext} {l : PhysicalLine} {rest : List PhysicalLine}
  {s s' : State} {e : ImportError}

theorem here_of_stands (h : Stands bytes f (l :: rest) s.reliable) : s.stage.here = l := by
  obtain ⟨⟨-, hl⟩, hp, hn, -⟩ := h.first
  have hbytes : s.cursor.source.bytes = bytes := congrArg Source.bytes h.source
  rw [hl, ← hp, ← hn, ← hbytes]
  rfl

/-- Over a settled source an import only fails if the source does, or asked it to stop. -/
theorem governs_settled {source : Source} (hsettled : source.Settled) (f : FileContext) :
    Governs f.settings (Cursor.On (· = source)) (ImportError.From (· = source)) :=
  governs_from rfl hsettled.movable_eq

/-- A line that could be read once can be read again from a settled source. -/
theorem lineAt_ne_error {source : Source} (hsettled : source.Settled)
    (hsource : s.cursor.source = source) {start : Nat}
    (hnone : source.failure? (source.lastTouched start) = none) :
    lineAt start s ≠ .error e s' := by
  intro h
  rw [lineAt] at h
  rcases bind_eq_error.mp h with hseek | ⟨u, s₁, hseek, hread⟩
  · obtain ⟨reason, hseek, -⟩ := reading_eq_error hseek
    rw [Cursor.seek, hsource, hsettled.movable] at hseek
    exact absurd hseek (by simp)
  · obtain ⟨reason, hread, -⟩ := reading_eq_error hread
    have hfails := failure?_of_readLine_error hread
    have hs₁ := seek_cases hseek
    have hsame : s₁.cursor.source = source := by
      rw [show s₁.cursor.source = s.cursor.source.moved start from congrArg Stage.source hs₁,
        hsource, hsettled.moved]
    rw [hsame, show s₁.cursor.position = start from congrArg Stage.position hs₁, hnone] at hfails
    exact absurd hfails (by simp)

/-- What an action without errors of its own adds to one that breaks off is nothing. -/
theorem error_of_bind {α β : Type} {m : Step α} {k : α → Step β}
    (hk : ∀ a, Within (fun _ => True) (fun _ => False) (k a))
    (h : (m >>= k) s = .error e s') : m s = .error e s' := by
  rcases bind_eq_error.mp h with hm | ⟨a, s₁, -, hk'⟩
  · exact hm
  · exact ((hk a).error trivial hk').2.elim

theorem within_report (start : Nat) (line : Int) (found : Option Chunk) {I : Cursor → Prop}
    {C : ImportError → Prop} : Within I C (report start line found) := by
  rw [report]
  cases found.filter (!·.isBlank) with
  | none => exact .pure none
  | some c => exact .bind (Governs.emit _) fun _ => .pure (some c)

theorem comment_error {start : Nat} {line : Int}
    (h : Import.comment start line s = .error e s') : lineAt start s = .error e s' := by
  refine error_of_bind (fun text => ?_) h
  cases text with
  | none => exact .pure none
  | some text =>
    exact .get_bind fun s _ => .bind (Governs.place _ _ _ _) fun c => .pure (some c)

theorem statement_error {settings : Settings} {start : Nat} {line : Int}
    (h : Import.statement settings start line s = .error e s') :
    lineAt start s = .error e s' := by
  refine error_of_bind (fun text => ?_) h
  cases text with
  | none => exact .pure none
  | some text =>
    refine .bind Governs.position fun stop => .get_bind fun s _ =>
      .bind (Governs.place _ _ _ _) fun c => ?_
    cases Constant.ofChunk? c with
    | none => exact .pure (some c)
    | some constant => exact .bind (.modify fun _ => rfl) fun _ => .pure (some c)

theorem macroDef_error {settings : Settings} {step : Step (List (Option Chunk) × Bool)}
    {start : Nat} {line : Int} (h : Import.macroDef settings step start line s = .error e s') :
    lineAt start s = .error e s' ∨
      ∃ text s₁, lineAt start s = .ok (some text) s₁ ∧ step s₁ = .error e s' := by
  rw [Import.macroDef] at h
  rcases bind_eq_error.mp h with hline | ⟨text, s₁, hline, h⟩
  · exact Or.inl hline
  · cases text with
    | none => exact absurd h (by simp [pure_apply])
    | some text =>
      refine Or.inr ⟨text, s₁, hline, ?_⟩
      dsimp only at h
      cases hheader : MacroHeader.parse? settings.mode (Text.normalize text) with
      | none =>
        rw [hheader] at h
        simp only [bind_apply, position_apply, Import.emit, modify_apply, place_apply] at h
        exact absurd h (by simp [pure_apply])
      | some header =>
        rw [hheader] at h
        refine error_of_bind (fun taken => .bind Governs.position fun stop => ?_) h
        cases taken.2 with
        | true => exact .bind (Governs.place _ _ _ _) fun c => .pure (some c)
        | false =>
          exact .bind (Governs.emit _) fun _ => .bind (Governs.place _ _ _ _) fun c =>
            .pure (some c)

/-- A dispatch over a settled source breaks off before the line at the cursor, or inside the
body behind a header. -/
theorem chunk_error {source : Source} (hsettled : source.Settled)
    (hon : s.cursor.On (· = source)) (h : Stands bytes f (l :: rest) s.reliable)
    {step : Step (List (Option Chunk) × Bool)} (herror : chunk f.settings step s = .error e s') :
    (s' = s ∧ Halts s e) ∨
      (l.kind = .macroDef ∧ ∃ s₁, s₁.reliable = s.reliable.past l ∧
        s₁.cursor.On (· = source) ∧ step s₁ = .error e s') := by
  have hgoverns := governs_settled hsettled f
  have hfixed : s.cursor.source.Fixed := by
    rw [hon.source]
    exact hsettled.fixed
  cases hread : reading Cursor.readLine s with
  | error e' s₁ =>
    have hfirst : chunk f.settings step s = .error e' s₁ := by
      simp only [chunk, bind_apply, position_apply, hread]
    obtain ⟨rfl, rfl⟩ := EStateM.Result.error.inj (hfirst.symm.trans herror)
    exact Or.inl (halts_of_readLine hread)
  | ok text s₁ =>
    have hnone := failure?_of_readLine hread
    have hon₁ : s₁.cursor.On (· = source) := hgoverns.readLine.within.ok hon hread
    -- The same reading over reliable bytes finds the line `l`.
    obtain ⟨hread', hfixed₁⟩ := SucceedsAs.reading persists_readLine s text s₁ hfixed hread
    obtain ⟨rfl, hs₁⟩ := EStateM.Result.ok.inj (hread'.symm.trans (reading_readLine h))
    obtain ⟨-, hp, hn, -⟩ := h.first
    have hhere := here_of_stands h
    rw [← hhere] at hread
    rw [chunk_eq hread, hhere] at herror
    have hparse := error_of_bind (fun found => within_report _ _ found) herror
    have hs₂ : ({ s₁ with line := s.line + 1 } : State).reliable = s.reliable.past l := by
      show ({ s₁.reliable with line := s.line + 1 } : State) = _
      rw [hs₁, show s.line + 1 = l.number from hn]
      rfl
    have hon₂ : ({ s₁ with line := s.line + 1 } : State).cursor.On (· = source) := hon₁
    have hagain : ∀ e s', lineAt l.position { s₁ with line := s.line + 1 } ≠ .error e s' := by
      rw [hon.source, show s.cursor.position = l.position from hp] at hnone
      exact fun e s' => lineAt_ne_error hsettled hon₂.source hnone
    rw [parserOf] at hparse
    cases hkind : l.kind with
    | comment =>
      rw [hkind] at hparse
      exact absurd (comment_error hparse) (hagain e s')
    | statement =>
      rw [hkind] at hparse
      exact absurd (statement_error hparse) (hagain e s')
    | macroDef =>
      rw [hkind] at hparse
      rcases macroDef_error hparse with hline | ⟨text, s₃, hline, hstep⟩
      · exact absurd hline (hagain e s')
      · obtain ⟨hline', -⟩ := succeedsAs_lineAt l.position { s₁ with line := s.line + 1 }
          (some text) s₃ hfixed₁ hline
        rw [hs₂, lineAt_past h] at hline'
        exact Or.inr ⟨rfl, s₃, (EStateM.Result.ok.inj hline').2.symm,
          (hgoverns.lineAt l.position).ok hon₂ hline, hstep⟩

/-- What a dispatch that succeeds has made of a line that begins no definition. -/
theorem chunk_ok_line {source : Source} (hsettled : source.Settled)
    (hon : s.cursor.On (· = source)) (h : Stands bytes f (l :: rest) s.reliable)
    (hkind : l.kind ≠ .macroDef) {fuel : Nat} {entry : Option Chunk}
    (hchunk : chunk f.settings (body f.settings fuel []) s = .ok entry s') :
    entry = l.entry (f.behind s.catalog.chunks.toList) ∧ s'.cursor.On (· = source) ∧
      Stands bytes f rest s'.reliable ∧
      Took f [l] (entry.map Chunk.event).toList s.reliable s'.reliable := by
  have hfixed : s.cursor.source.Fixed := hon.source ▸ hsettled.fixed
  obtain ⟨hsame, -⟩ := succeedsAs_chunk f.settings fuel s entry s' hfixed hchunk
  obtain ⟨s₁, hs₁, hstands, htook⟩ := chunk_line h hkind (body f.settings fuel [])
  obtain ⟨rfl, rfl⟩ := EStateM.Result.ok.inj (hsame.symm.trans hs₁)
  have hgoverns := governs_settled hsettled f
  exact ⟨rfl, (hgoverns.chunk (hgoverns.body fuel [])).ok hon hchunk, hstands, htook⟩

/-- What a dispatch that succeeds has made of a definition. -/
theorem chunk_ok_definition {source : Source} (hsettled : source.Settled)
    (hon : s.cursor.On (· = source)) (h : Stands bytes f (l :: rest) s.reliable)
    (hkind : l.kind = .macroDef) {o : Outline} {ended : Bool} {left : List PhysicalLine}
    (hbody : BodyOutline rest o ended left) {fuel : Nat} (hfuel : rest.length ≤ fuel)
    {entry : Option Chunk}
    (hchunk : chunk f.settings (body f.settings fuel []) s = .ok entry s') :
    entry = Outline.definition? (f.behind s.catalog.chunks.toList) l o ∧
      s'.cursor.On (· = source) ∧ Stands bytes f left s'.reliable ∧
      Took f (l :: o.lines)
        ((Outline.definition l o ended .nil).events (f.behind s.catalog.chunks.toList))
        s.reliable s'.reliable := by
  have hfixed : s.cursor.source.Fixed := hon.source ▸ hsettled.fixed
  obtain ⟨hsame, -⟩ := succeedsAs_chunk f.settings fuel s entry s' hfixed hchunk
  obtain ⟨s₀, hs₀, hstands₀, htook₀⟩ := body_eq hbody [] h.past hfuel
  obtain ⟨s₁, hs₁, hstands, htook⟩ := chunk_definition h hkind hs₀ hstands₀ htook₀
  obtain ⟨rfl, rfl⟩ := EStateM.Result.ok.inj (hsame.symm.trans hs₁)
  have hgoverns := governs_settled hsettled f
  exact ⟨rfl, (hgoverns.chunk (hgoverns.body fuel [])).ok hon hchunk, hstands, htook⟩

end Chunk

/-! ### What was done before -/

end Import

/-- The chunk of a line that begins no definition is among these events. -/
def PhysicalLine.ReportedIn (l : PhysicalLine) (events : List Event) : Prop :=
  l.kind ≠ .macroDef → ∀ x c, l.entry x = some c → c.event ∈ events

/-- The event of a line does not depend on what the line is read with. -/
theorem PhysicalLine.reportedIn_entry (l : PhysicalLine) (x : LineContext) :
    l.ReportedIn ((l.entry x).map Chunk.event).toList := by
  intro hkind y c hc
  rw [Option.mem_toList]
  rcases kind_cases hkind with hk | hk
  · rw [entry_comment hk] at hc ⊢
    obtain rfl := Option.some.inj hc
    rfl
  · rw [entry_statement hk] at hc ⊢
    split at hc
    · exact absurd hc (by simp)
    · rename_i hblank
      obtain rfl := Option.some.inj hc
      rw [if_neg hblank]
      rfl

theorem PhysicalLine.ReportedIn.mono {l : PhysicalLine} {events events' : List Event}
    (h : l.ReportedIn events) (hsub : events ⊆ events') : l.ReportedIn events' :=
  fun hkind x c hc => hsub (h hkind x c hc)

/-- All lines of an outline are among its events. -/
theorem Outline.reportedIn_events {o : Outline} (x : LineContext) {l : PhysicalLine}
    (hl : l ∈ o.lines) (hsound : o.Sound) : l.ReportedIn (o.events x) := by
  induction o with
  | nil => exact absurd hl List.not_mem_nil
  | line l' next ih =>
    rcases List.mem_cons.mp hl with rfl | hl
    · exact (l.reportedIn_entry x).mono (List.subset_append_left ..)
    · exact (ih hl hsound.2).mono (List.subset_append_right ..)
  | definition h body ended next ihb ihn =>
    obtain ⟨hkind, hbody, hnext⟩ := hsound
    rw [lines, List.mem_cons, List.mem_append] at hl
    rcases hl with rfl | hl | hl
    · exact fun hother => absurd hkind hother
    · refine (ihb hl hbody).mono ?_
      rw [events, List.append_assoc, List.append_assoc]
      exact List.subset_append_left ..
    · exact (ihn hl hnext).mono (List.subset_append_right ..)

/-- The lines of a definition are among its events. -/
theorem Outline.reportedIn_definition {l : PhysicalLine} {body : Outline}
    (hkind : l.kind = .macroDef) (hbody : body.Sound) (x : LineContext) (ended : Bool) :
    ∀ l' ∈ l :: body.lines, l'.ReportedIn ((definition l body ended nil).events x) := by
  intro l' hl'
  refine reportedIn_events x ?_ ⟨hkind, hbody, trivial⟩
  rw [lines, lines, List.append_nil]
  exact hl'

namespace Import

/-- An import has come from `s` to `s'` over some of these lines and breaks off there.  What
it has reported is a beginning of these events, and has the chunks of all lines that it came
over. -/
structure BrokenOff (lines : List PhysicalLine) (events : List Event) (s s' : State)
    (e : ImportError) : Prop where
  halts : Halts s' e
  before : ∃ done later reported, lines = done ++ later ∧
    (∀ l ∈ later.head?, s'.line + 1 = l.number) ∧
    s'.cursor.position = s.cursor.position + extent done ∧
    s'.events.toList = s.events.toList ++ reported ∧ reported <+: events ∧
    ∀ l ∈ done, l.ReportedIn reported

namespace BrokenOff

variable {bytes : Bytes} {f : FileContext} {lines : List PhysicalLine}
  {events : List Event} {s s₁ s' : State} {e : ImportError}

/-- It breaks off before the first line. -/
theorem head (h : Stands bytes f lines s.reliable) (hs : s'.stage = s.stage)
    (hhalts : Halts s' e) : BrokenOff lines events s s' e := by
  refine ⟨hhalts, [], lines, [], rfl, fun l hl => ?_, ?_, ?_, List.nil_prefix, ?_⟩
  · cases lines with
    | nil => exact absurd hl (by simp)
    | cons l' rest =>
      obtain rfl := Option.some.inj hl
      obtain ⟨-, -, hnumber, -⟩ := h.first
      rw [show s'.line = s.line from congrArg Stage.line hs]
      exact hnumber
  · exact congrArg Stage.position hs
  · rw [List.append_nil]
    exact congrArg Stage.events hs
  · exact fun l hl => absurd hl List.not_mem_nil

theorem mono {events' : List Event} (h : BrokenOff lines events s s' e)
    (hle : events <+: events') : BrokenOff lines events' s s' e := by
  obtain ⟨done, later, reported, hlines, hnumber, hposition, hevents, hreported, hdone⟩ :=
    h.before
  exact ⟨h.halts, done, later, reported, hlines, hnumber, hposition, hevents,
    hreported.trans hle, hdone⟩

/-- It breaks off behind some lines that it has taken. -/
theorem behind {taken : List PhysicalLine} {events₁ : List Event}
    (h : BrokenOff lines events s₁ s' e)
    (hposition : s₁.cursor.position = s.cursor.position + extent taken)
    (hevents : s₁.events.toList = s.events.toList ++ events₁)
    (htaken : ∀ l ∈ taken, l.ReportedIn events₁) :
    BrokenOff (taken ++ lines) (events₁ ++ events) s s' e := by
  obtain ⟨done, later, reported, hlines, hnumber, hposition', hevents', hreported, hdone⟩ :=
    h.before
  refine ⟨h.halts, taken ++ done, later, events₁ ++ reported, ?_, hnumber, ?_, ?_, ?_, ?_⟩
  · rw [hlines, List.append_assoc]
  · rw [hposition', hposition, extent_append, Nat.add_assoc]
  · rw [hevents', hevents, List.append_assoc]
  · exact List.prefix_append_right_inj events₁ |>.mpr hreported
  · intro l hl
    rcases List.mem_append.mp hl with hl | hl
    · exact (htaken l hl).mono (List.subset_append_left ..)
    · exact (hdone l hl).mono (List.subset_append_right ..)

end BrokenOff

/-! ### Bodies -/

section Loops

variable {bytes : Bytes} {f : FileContext} {l : PhysicalLine} {rest : List PhysicalLine}
  {source : Source} {s s' : State} {e : ImportError}

/-- The test for the end and the check before a line break off, or change nothing that
matters. -/
theorem before_line {α : Type} (hsettled : source.Settled) (hon : s.cursor.On (· = source))
    (h : Stands bytes f (l :: rest) s.reliable) (finish go : Step α) :
    (∃ e s', (reading Cursor.atEnd >>= fun finished => if finished then finish else do
        checkInterrupt f.settings; go) s = .error e s' ∧ s'.stage = s.stage ∧ Halts s' e) ∨
      ∃ s₁, s₁.stage = s.stage ∧ s₁.reliable = s.reliable ∧ s₁.cursor.On (· = source) ∧
        (reading Cursor.atEnd >>= fun finished => if finished then finish else do
          checkInterrupt f.settings; go) s = go s₁ := by
  have hgoverns := governs_settled hsettled f
  have hfixed : s.cursor.source.Fixed := hon.source ▸ hsettled.fixed
  rw [bind_apply]
  cases hend : reading Cursor.atEnd s with
  | error e s₁ =>
    obtain ⟨rfl, hhalts⟩ := halts_of_atEnd hend
    exact Or.inl ⟨e, s₁, rfl, rfl, hhalts⟩
  | ok finished s₁ =>
    obtain ⟨-, hs₁⟩ := atEnd_cases hend
    obtain ⟨hend', -⟩ := SucceedsAs.reading persists_atEnd s finished s₁ hfixed hend
    obtain ⟨rfl, hreliable⟩ := EStateM.Result.ok.inj (hend'.symm.trans (reading_atEnd h))
    simp only [List.cons_ne_nil, decide_false, Bool.false_eq_true, if_false]
    rw [bind_apply]
    cases hcheck : checkInterrupt f.settings s₁ with
    | error e s₂ =>
      obtain ⟨rfl, hhalts⟩ := halts_of_checkInterrupt hcheck
      exact Or.inl ⟨e, s₂, rfl, hs₁, hhalts⟩
    | ok u s₂ =>
      obtain rfl := checkInterrupt_ok hcheck
      exact Or.inr ⟨s₂, hs₁, hreliable, hgoverns.atEnd.within.ok hon hend, rfl⟩

/-- A body breaks off before a line, or has looked at it and goes on with a dispatch. -/
theorem body_cases (hsettled : source.Settled) (hon : s.cursor.On (· = source))
    (h : Stands bytes f (l :: rest) s.reliable) (fuel : Nat) (taken : List (Option Chunk)) :
    (∃ e s', body f.settings (fuel + 1) taken s = .error e s' ∧ s'.stage = s.stage ∧
        Halts s' e) ∨
      ∃ s₁, s₁.stage = s.stage ∧ s₁.reliable = s.reliable.peeked l ∧
        s₁.cursor.On (· = source) ∧
        body f.settings (fuel + 1) taken s =
          (chunk f.settings (body f.settings fuel []) >>= fun entry =>
            if l.ends then pure ((entry :: taken).reverse, true)
            else body f.settings fuel (entry :: taken)) s₁ := by
  have hgoverns := governs_settled hsettled f
  rw [body]
  rcases before_line hsettled hon h _ _ with hbroken | ⟨s₁, hs₁, hreliable, hon₁, hgo⟩
  · exact Or.inl hbroken
  rw [hgo, bind_apply]
  have hfixed : s₁.cursor.source.Fixed := hon₁.source ▸ hsettled.fixed
  cases hpeek : reading Cursor.peekLine s₁ with
  | error e s₂ =>
    obtain ⟨rfl, hhalts⟩ := halts_of_peekLine (hon₁.source ▸ hsettled.movable) hpeek
    exact Or.inl ⟨e, s₂, rfl, hs₁, hhalts⟩
  | ok text s₂ =>
    obtain ⟨hpeek', -⟩ := succeedsAs_peekLine s₁ text s₂ hfixed hpeek
    rw [hreliable] at hpeek'
    obtain ⟨rfl, hs₂⟩ := EStateM.Result.ok.inj (hpeek'.symm.trans (reading_peekLine h))
    have hleft : ¬ s₁.stage.AtEnd := by
      obtain ⟨⟨hlt, -⟩, hp, -⟩ := h.first
      rw [hs₁]
      refine Nat.not_le_of_lt ?_
      rw [← hp, ← show s.cursor.source.bytes = bytes from congrArg Source.bytes h.source] at hlt
      exact hlt
    obtain ⟨-, hstage⟩ := peekLine_cases hpeek hleft
    refine Or.inr ⟨s₂, ?_, hs₂, hgoverns.peekLine.within.ok hon₁ hpeek, rfl⟩
    rw [hstage, hs₁, Stage.reopened, show s.stage.source = source from hon.source,
      hsettled.moved, ← hon.source]
    rfl

/-- A body without lines breaks off where it stands. -/
theorem body_nil_error (h : Stands bytes f [] s.reliable) (hon : s.cursor.On (· = source))
    (hsettled : source.Settled) {fuel : Nat} {taken : List (Option Chunk)}
    (herror : body f.settings fuel taken s = .error e s') : s'.stage = s.stage ∧ Halts s' e := by
  have hfixed : s.cursor.source.Fixed := hon.source ▸ hsettled.fixed
  cases fuel with
  | zero => exact absurd herror (by simp [body, pure_apply])
  | succ fuel =>
    rw [body, bind_apply] at herror
    cases hend : reading Cursor.atEnd s with
    | error e₁ s₁ =>
      rw [hend] at herror
      obtain ⟨rfl, rfl⟩ := EStateM.Result.error.inj herror
      obtain ⟨rfl, hhalts⟩ := halts_of_atEnd hend
      exact ⟨rfl, hhalts⟩
    | ok finished s₁ =>
      obtain ⟨hend', -⟩ := SucceedsAs.reading persists_atEnd s finished s₁ hfixed hend
      obtain ⟨rfl, -⟩ := EStateM.Result.ok.inj (hend'.symm.trans (reading_atEnd h))
      rw [hend] at herror
      exact absurd herror (by simp [pure_apply])

theorem catalog_of_reliable {s s₁ t : State} (h : s₁.reliable = t)
    (ht : t.catalog = s.catalog) : s₁.catalog = s.catalog := by
  rw [← ht, ← h]
  rfl

/-- A body breaks off before its first line, inside the body behind this line, or later. -/
theorem body_cons_error (hsettled : source.Settled) (hon : s.cursor.On (· = source))
    (h : Stands bytes f (l :: rest) s.reliable) {fuel : Nat} {taken : List (Option Chunk)}
    (herror : body f.settings (fuel + 1) taken s = .error e s') :
    (s'.stage = s.stage ∧ Halts s' e) ∨
      (l.kind = .macroDef ∧ ∃ s₁, s₁.reliable = (s.reliable.peeked l).past l ∧
        s₁.cursor.On (· = source) ∧ body f.settings fuel [] s₁ = .error e s') ∨
      (l.ends = false ∧ ∃ entry s₁ s₂, s₁.reliable = s.reliable.peeked l ∧
        s₁.cursor.On (· = source) ∧
        chunk f.settings (body f.settings fuel []) s₁ = .ok entry s₂ ∧
        body f.settings fuel (entry :: taken) s₂ = .error e s') := by
  rcases body_cases hsettled hon h fuel taken with
    ⟨e₁, s₁, hbroken, hs₁, hhalts⟩ | ⟨s₁, hs₁, hreliable, hon₁, hgo⟩
  · obtain ⟨rfl, rfl⟩ := EStateM.Result.error.inj (hbroken.symm.trans herror)
    exact Or.inl ⟨hs₁, hhalts⟩
  rw [hgo, bind_apply] at herror
  cases hchunk : chunk f.settings (body f.settings fuel []) s₁ with
  | error e₁ s₂ =>
    rw [hchunk] at herror
    obtain ⟨rfl, rfl⟩ := EStateM.Result.error.inj herror
    rcases chunk_error hsettled hon₁ (hreliable ▸ h.peeked) hchunk with
      ⟨rfl, hhalts⟩ | ⟨hkind, s₃, hs₃, hon₃, hbody⟩
    · exact Or.inl ⟨hs₁, hhalts⟩
    · exact Or.inr (Or.inl ⟨hkind, s₃, hreliable ▸ hs₃, hon₃, hbody⟩)
  | ok entry s₂ =>
    rw [hchunk] at herror
    cases hends : l.ends with
    | true =>
      simp only [hends, if_true] at herror
      exact absurd herror (by simp [pure_apply])
    | false =>
      simp only [hends, Bool.false_eq_true, if_false] at herror
      exact Or.inr (Or.inr ⟨rfl, entry, s₁, s₂, hreliable, hon₁, hchunk, herror⟩)

/-- When a nested body breaks off, so does the definition around it, whose own chunk is not
reported yet. -/
theorem BrokenOff.inside {o next : Outline} {ended : Bool} {x : LineContext} {s₁ t : State}
    (h : Stands bytes f (l :: rest) s.reliable) (hkind : l.kind = .macroDef)
    (hs₁ : s₁.reliable = t.past l) (ht : t.events = s.events)
    (hbroken : BrokenOff rest (o.events x) s₁ s' e) :
    BrokenOff (l :: rest) ((Outline.definition l o ended next).events x) s s' e := by
  obtain ⟨-, hp, -⟩ := h.first
  have hposition : s₁.reliable.cursor.position = l.stop := by rw [hs₁]; rfl
  have hevents : s₁.reliable.events = s.events := by rw [hs₁, ← ht]; rfl
  have hbehind : BrokenOff ([l] ++ rest) ([] ++ o.events x) s s' e := by
    refine hbroken.behind ?_ ?_ ?_
    · rw [show s₁.cursor.position = l.stop from hposition, extent_cons, extent_nil,
        Nat.add_zero, show s.cursor.position = l.position from hp]
      rfl
    · rw [show s₁.events = s.events from hevents, List.append_nil]
    · intro l' hl' hother
      rw [List.mem_singleton.mp hl'] at hother
      exact absurd hkind hother
  refine hbehind.mono ?_
  rw [Outline.events, List.append_assoc, List.append_assoc]
  exact List.prefix_append ..

/-- Where the body of a macro breaks off. -/
theorem body_error (hsettled : source.Settled) {lines left : List PhysicalLine} {o : Outline}
    {ended : Bool} (hb : BodyOutline lines o ended left) :
    ∀ {s s' : State} {e : ImportError} {fuel : Nat} {taken : List (Option Chunk)},
      s.cursor.On (· = source) → Stands bytes f lines s.reliable → lines.length ≤ fuel →
      body f.settings fuel taken s = .error e s' →
      BrokenOff lines (o.events (f.behind s.catalog.chunks.toList)) s s' e := by
  -- What a dispatch that succeeds has made of a line or of a definition is known from the
  -- import that nothing interrupts, so only the place of the break is looked for.
  induction hb with
  | nil =>
    intro s s' e fuel taken hon h _ herror
    obtain ⟨hs', hhalts⟩ := body_nil_error h hon hsettled herror
    exact .head h hs' hhalts
  | lastLine hkind hends =>
    intro s s' e fuel taken hon h hfuel herror
    obtain ⟨fuel, rfl, -⟩ := exists_fuel hfuel
    rcases body_cons_error hsettled hon h herror with
      ⟨hs', hhalts⟩ | ⟨hheader, -⟩ | ⟨hgoes, -⟩
    · exact .head h hs' hhalts
    · exact absurd hheader hkind
    · exact absurd hgoes (by simp [hends])
  | @line l rest left next ended hkind _ _ ih =>
    intro s s' e fuel taken hon h hfuel herror
    obtain ⟨fuel, rfl, hrest⟩ := exists_fuel hfuel
    rcases body_cons_error hsettled hon h herror with
      ⟨hs', hhalts⟩ | ⟨hheader, -⟩ | ⟨-, entry, s₁, s₂, hs₁, hon₁, hchunk, hlater⟩
    · exact .head h hs' hhalts
    · exact absurd hheader hkind
    · obtain ⟨rfl, hon₂, hstands, htook⟩ :=
        chunk_ok_line hsettled hon₁ (hs₁ ▸ h.peeked) hkind hchunk
      have hbroken := ih hon₂ hstands hrest hlater
      have hcatalog : s₁.catalog = s.catalog := catalog_of_reliable hs₁ rfl
      rw [hs₁, hcatalog] at htook
      rw [show s₂.catalog.chunks = s.catalog.chunks from htook.chunks] at hbroken
      have hbehind : BrokenOff ([l] ++ rest) (_ ++ _) s s' e :=
        hbroken.behind htook.position htook.events fun l' hl' =>
          List.mem_singleton.mp hl' ▸ l.reportedIn_entry _
      exact hbehind
  | lastDefinition hkind hends _ ih =>
    intro s s' e fuel taken hon h hfuel herror
    obtain ⟨fuel, rfl, hrest⟩ := exists_fuel hfuel
    rcases body_cons_error hsettled hon h herror with
      ⟨hs', hhalts⟩ | ⟨-, s₁, hs₁, hon₁, hbody⟩ | ⟨hgoes, -⟩
    · exact .head h hs' hhalts
    · have hbroken := ih hon₁ (hs₁ ▸ h.peeked.past) hrest hbody
      rw [show s₁.catalog = s.catalog from catalog_of_reliable hs₁ rfl] at hbroken
      exact .inside h hkind hs₁ rfl hbroken
    · exact absurd hgoes (by simp [hends])
  | @definition l rest between left o next ended ended' hkind _ hbody hnext ihb ihn =>
    intro s s' e fuel taken hon h hfuel herror
    obtain ⟨fuel, rfl, hrest⟩ := exists_fuel hfuel
    rcases body_cons_error hsettled hon h herror with
      ⟨hs', hhalts⟩ | ⟨-, s₁, hs₁, hon₁, hinner⟩ |
        ⟨-, entry, s₁, s₂, hs₁, hon₁, hchunk, hlater⟩
    · exact .head h hs' hhalts
    · have hbroken := ihb hon₁ (hs₁ ▸ h.peeked.past) hrest hinner
      rw [show s₁.catalog = s.catalog from catalog_of_reliable hs₁ rfl] at hbroken
      exact .inside h hkind hs₁ rfl hbroken
    · obtain ⟨rfl, hon₂, hstands, htook⟩ :=
        chunk_ok_definition hsettled hon₁ (hs₁ ▸ h.peeked) hkind hbody hrest hchunk
      have hbroken := ihn hon₂ hstands (Nat.le_trans hbody.length_left_le hrest) hlater
      have hcatalog : s₁.catalog = s.catalog := catalog_of_reliable hs₁ rfl
      rw [hs₁, hcatalog] at htook
      rw [show s₂.catalog.chunks = s.catalog.chunks from htook.chunks] at hbroken
      rw [← hbody.lines_append, Outline.events_definition]
      have hbehind : BrokenOff ((l :: o.lines) ++ between) (_ ++ _) s s' e :=
        hbroken.behind htook.position htook.events
          (Outline.reportedIn_definition hkind hbody.sound _ _)
      exact hbehind

/-! ### Scans -/

/-- A scan breaks off before a line, or goes on with a dispatch. -/
theorem scan_cases (hsettled : source.Settled) (hon : s.cursor.On (· = source))
    (h : Stands bytes f (l :: rest) s.reliable) (fuel : Nat) :
    (∃ e s', scan f.settings (fuel + 1) s = .error e s' ∧ s'.stage = s.stage ∧ Halts s' e) ∨
      ∃ s₁, s₁.stage = s.stage ∧ s₁.reliable = s.reliable ∧ s₁.cursor.On (· = source) ∧
        scan f.settings (fuel + 1) s =
          match chunk f.settings (body f.settings fuel []) s₁ with
          | .ok entry s₂ => scan f.settings fuel (s₂.added entry)
          | .error e s₂ => .error e s₂ := by
  rw [scan]
  rcases before_line hsettled hon h _ _ with hbroken | ⟨s₁, hs₁, hreliable, hon₁, hgo⟩
  · exact Or.inl hbroken
  · refine Or.inr ⟨s₁, hs₁, hreliable, hon₁, ?_⟩
    rw [hgo, bind_apply]
    rcases chunk f.settings (body f.settings fuel []) s₁ with ⟨_ | c, s₂⟩ | ⟨e, s₂⟩ <;> rfl

/-- Adding a chunk to the catalog leaves the cursor and the events alone. -/
theorem State.added_same (s : State) (entry : Option Chunk) :
    (s.added entry).cursor = s.cursor ∧ (s.added entry).events = s.events := by
  cases entry with
  | none => exact ⟨rfl, rfl⟩
  | some c => exact ⟨rfl, rfl⟩

theorem State.reliable_added (s : State) (entry : Option Chunk) :
    (s.added entry).reliable = s.reliable.added entry := by
  cases entry <;> rfl

/-- A scan of these lines breaks off, or has seen that nothing is left behind the last. -/
def BreaksOrEnds (f : FileContext) (fuel : Nat) (lines : List PhysicalLine)
    (events : List Event) (s : State) : Prop :=
  (∃ e s', scan f.settings fuel s = .error e s' ∧ BrokenOff lines events s s' e) ∨
    ((∃ s', scan f.settings fuel s = .ok () s') ∧
      s.cursor.source.failure? (s.cursor.position + extent lines) = none)

/-- Where nothing is left, the test for the end touches the offset behind the last line. -/
theorem breaksOrEnds_nil (hsettled : source.Settled) (hon : s.cursor.On (· = source))
    (h : Stands bytes f [] s.reliable) (fuel : Nat) : BreaksOrEnds f (fuel + 1) [] [] s := by
  have hfixed : s.cursor.source.Fixed := hon.source ▸ hsettled.fixed
  rw [BreaksOrEnds, scan, bind_apply]
  cases hend : reading Cursor.atEnd s with
  | error e s₁ =>
    obtain ⟨rfl, hhalts⟩ := halts_of_atEnd hend
    exact Or.inl ⟨e, s₁, rfl, .head h rfl hhalts⟩
  | ok finished s₁ =>
    obtain ⟨hend', -⟩ := SucceedsAs.reading persists_atEnd s finished s₁ hfixed hend
    obtain ⟨rfl, -⟩ := EStateM.Result.ok.inj (hend'.symm.trans (reading_atEnd h))
    refine Or.inr ⟨⟨s₁, rfl⟩, ?_⟩
    rw [extent_nil, Nat.add_zero]
    cases hfails : s.cursor.source.failure? s.cursor.position with
    | none => rfl
    | some reason =>
      rw [reading, Cursor.atEnd, hfails] at hend
      exact absurd hend (by simp)

/-- A scan breaks off inside a first dispatch, or behind it. -/
theorem breaksOrEnds_cons (hsettled : source.Settled) (hon : s.cursor.On (· = source))
    (h : Stands bytes f (l :: rest) s.reliable) {fuel : Nat} {more left : List PhysicalLine}
    {entry : Option Chunk} {events₁ events₂ : List Event} (hlines : more ++ left = rest)
    (hentry : ∀ c, entry = some c → c.path = f.path ∧ c.position = l.position)
    (htaken : ∀ l' ∈ l :: more, l'.ReportedIn events₁)
    (hbreaks : ∀ s₁ e s', s₁.stage = s.stage → s₁.reliable = s.reliable →
      s₁.cursor.On (· = source) → chunk f.settings (body f.settings fuel []) s₁ = .error e s' →
      BrokenOff (l :: rest) (events₁ ++ events₂) s s' e)
    (hgoes : ∀ s₁ found s₂, s₁.reliable = s.reliable → s₁.cursor.On (· = source) →
      chunk f.settings (body f.settings fuel []) s₁ = .ok found s₂ →
      found = entry ∧ s₂.cursor.On (· = source) ∧ Stands bytes f left s₂.reliable ∧
        Took f (l :: more) events₁ s.reliable s₂.reliable)
    (hlater : ∀ s₂, s₂.cursor.On (· = source) → Stands bytes f left s₂.reliable →
      s₂.catalog.chunks.toList = s.catalog.chunks.toList ++ entry.toList →
      BreaksOrEnds f fuel left events₂ s₂) :
    BreaksOrEnds f (fuel + 1) (l :: rest) (events₁ ++ events₂) s := by
  rcases scan_cases hsettled hon h fuel with
    ⟨e, s₁, hbroken, hs₁, hhalts⟩ | ⟨s₁, hs₁, hreliable, hon₁, hscan⟩
  · exact Or.inl ⟨e, s₁, hbroken, .head h hs₁ hhalts⟩
  rw [BreaksOrEnds, hscan]
  cases hchunk : chunk f.settings (body f.settings fuel []) s₁ with
  | error e s₂ => exact Or.inl ⟨e, s₂, rfl, hbreaks s₁ e s₂ hs₁ hreliable hon₁ hchunk⟩
  | ok found s₂ =>
    obtain ⟨rfl, hon₂, hstands, htook⟩ := hgoes s₁ found s₂ hreliable hon₁ hchunk
    obtain ⟨hcursor, hsame⟩ := s₂.added_same found
    obtain ⟨hlist, hstands'⟩ := h.added hstands htook hentry
    rw [← State.reliable_added] at hlist hstands'
    have hposition : (s₂.added found).cursor.position =
        s.cursor.position + extent (l :: more) := by
      rw [hcursor]
      exact htook.position
    rcases hlater _ (hcursor ▸ hon₂) hstands' hlist with ⟨e, s', hbroken, hbehind⟩ | ⟨hok, hends⟩
    · refine Or.inl ⟨e, s', hbroken, ?_⟩
      rw [← hlines, ← List.cons_append]
      refine hbehind.behind hposition ?_ htaken
      rw [hsame]
      exact htook.events
    · refine Or.inr ⟨hok, ?_⟩
      rw [hposition, hcursor, hon₂.source] at hends
      rw [hon.source, ← hlines, ← List.cons_append, extent_append, ← Nat.add_assoc]
      exact hends

/-- Where a scan breaks off, if it does. -/
theorem breaksOrEnds (hsettled : source.Settled) {lines : List PhysicalLine} {o : Outline}
    (ho : FileOutline lines o) :
    ∀ {s : State} {fuel : Nat}, s.cursor.On (· = source) → Stands bytes f lines s.reliable →
      lines.length < fuel →
      BreaksOrEnds f fuel lines (o.eventsBehind f s.catalog.chunks.toList) s := by
  induction ho with
  | nil =>
    intro s fuel hon h hfuel
    obtain ⟨fuel, rfl⟩ := Nat.exists_eq_succ_of_ne_zero (Nat.ne_of_gt hfuel)
    exact breaksOrEnds_nil hsettled hon h fuel
  | @line l rest next hkind _ ih =>
    intro s fuel hon h hfuel
    obtain ⟨fuel, rfl, -⟩ := exists_fuel (Nat.le_of_lt hfuel)
    rw [Outline.eventsBehind, Outline.events, Outline.events, List.append_nil]
    have hentry : ∀ c, l.entry (f.behind s.catalog.chunks.toList) = some c →
        c.path = f.path ∧ c.position = l.position := fun c hc =>
      ⟨(PhysicalLine.place_of_entry hkind hc).1, (PhysicalLine.place_of_entry hkind hc).2.1⟩
    refine breaksOrEnds_cons hsettled hon h (List.nil_append rest) hentry
      (fun l' hl' => List.mem_singleton.mp hl' ▸ l.reportedIn_entry _) ?_ ?_ ?_
    · intro s₁ e s' hs₁ hreliable hon₁ hchunk
      rcases chunk_error hsettled hon₁ (hreliable ▸ h) hchunk with
        ⟨rfl, hhalts⟩ | ⟨hheader, -⟩
      · exact .head h hs₁ hhalts
      · exact absurd hheader hkind
    · intro s₁ entry s₂ hreliable hon₁ hchunk
      obtain ⟨rfl, hon₂, hstands, htook⟩ :=
        chunk_ok_line hsettled hon₁ (hreliable ▸ h) hkind hchunk
      have hcatalog : s₁.catalog = s.catalog := catalog_of_reliable hreliable rfl
      rw [hreliable] at htook
      rw [hcatalog] at htook ⊢
      exact ⟨rfl, hon₂, hstands, htook⟩
    · intro s₂ hon₂ hstands hlist
      rw [← hlist]
      exact ih hon₂ hstands (Nat.lt_of_succ_lt_succ hfuel)
  | @definition l rest left o next ended hkind hbody _ ih =>
    intro s fuel hon h hfuel
    obtain ⟨fuel, rfl, hrest⟩ := exists_fuel (Nat.le_of_lt hfuel)
    rw [Outline.eventsBehind]
    have hentry : ∀ c, Outline.definition? (f.behind s.catalog.chunks.toList) l o = some c →
        c.path = f.path ∧ c.position = l.position := fun c hc =>
      ⟨(Outline.place_of_definition? hc).1, (Outline.place_of_definition? hc).2.1⟩
    refine breaksOrEnds_cons hsettled hon h hbody.lines_append hentry
      (Outline.reportedIn_definition hkind hbody.sound _ _) ?_ ?_ ?_
    · intro s₁ e s' hs₁ hreliable hon₁ hchunk
      rcases chunk_error hsettled hon₁ (hreliable ▸ h) hchunk with
        ⟨rfl, hhalts⟩ | ⟨-, s₂, hs₂, hon₂, hinner⟩
      · exact .head h hs₁ hhalts
      · rw [hreliable] at hs₂
        have hbroken := body_error hsettled hbody hon₂ (hs₂ ▸ h.past) hrest hinner
        rw [show s₂.catalog = s.catalog from catalog_of_reliable hs₂ rfl] at hbroken
        have hinside : BrokenOff (l :: rest) ((Outline.definition l o ended .nil).events
            (f.behind s.catalog.chunks.toList)) s s' e := .inside h hkind hs₂ rfl hbroken
        exact hinside.mono (List.prefix_append ..)
    · intro s₁ entry s₂ hreliable hon₁ hchunk
      obtain ⟨rfl, hon₂, hstands, htook⟩ :=
        chunk_ok_definition hsettled hon₁ (hreliable ▸ h) hkind hbody hrest hchunk
      have hcatalog : s₁.catalog = s.catalog := catalog_of_reliable hreliable rfl
      rw [hreliable] at htook
      rw [hcatalog] at htook ⊢
      exact ⟨rfl, hon₂, hstands, htook⟩
    · intro s₂ hon₂ hstands hlist
      rw [← hlist]
      exact ih hon₂ hstands
        (Nat.lt_of_le_of_lt hbody.length_left_le (Nat.lt_of_succ_lt_succ hfuel))

end Loops

end Import

end AsmCatalog
