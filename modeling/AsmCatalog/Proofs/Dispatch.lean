/-
What one dispatch of an import does, whatever its source.

A dispatch reads a line to tell its kind, moves back and reads it once more, and in the
meantime the bytes may have been replaced.  So there are two lines, the one that is
classified and the one that is catalogued, and the second may not be there any more.
What a dispatch that succeeds has done is said here once; no later proof opens it again.

Main definitions:
* `Import.Stage` — a state of an import without what no chunk depends on;
* `Stage.here`, `Stage.reopened`, `Stage.past` — the line at the cursor, and the stages
  in which the cursor was moved to it and behind it;
* `Import.Plain` — a dispatch that takes no body;
* `Stage.Opens`, `Stage.definition`, `Stage.closed` — a dispatch that takes one.

Main statement:
* `Import.chunk_cases` — a dispatch that succeeds is one of these.
-/
import AsmCatalog.Proofs.ReliableLine

namespace AsmCatalog

namespace PhysicalLine

/-- The comment that a line is read as. -/
def commentChunk (path : SourcePath) (l : PhysicalLine) : Chunk :=
  ⟨path, l.position, l.number, l.contentLength, .comment (commentText l.text)⟩

/-- The statement that a line is read as, blank or not. -/
def statementChunk (x : LineContext) (l : PhysicalLine) : Chunk :=
  ⟨x.path, l.position, l.number, l.bytes.length,
    .statement (.parse x.mode x.candidates l.text)⟩

end PhysicalLine

namespace Import

/-! ### Actions that succeed and actions that fail -/

section Bind

variable {α β : Type} {m : Step α} {k : α → Step β} {s s' : State}

theorem bind_eq_ok {b : β} :
    (m >>= k) s = .ok b s' ↔ ∃ a s₁, m s = .ok a s₁ ∧ k a s₁ = .ok b s' := by
  rw [bind_apply]
  constructor
  · intro h
    split at h
    · exact ⟨_, _, ‹_›, h⟩
    · exact absurd h (by simp)
  · rintro ⟨a, s₁, hm, hk⟩
    rw [hm]
    exact hk

theorem bind_eq_error {e : ImportError} :
    (m >>= k) s = .error e s' ↔
      m s = .error e s' ∨ ∃ a s₁, m s = .ok a s₁ ∧ k a s₁ = .error e s' := by
  rw [bind_apply]
  constructor
  · intro h
    split at h
    · exact Or.inr ⟨_, _, ‹_›, h⟩
    · obtain ⟨rfl, rfl⟩ := EStateM.Result.error.inj h
      exact Or.inl ‹_›
  · rintro (hm | ⟨a, s₁, hm, hk⟩)
    · rw [hm]
    · rw [hm]
      exact hk

theorem pure_eq_ok {a b : α} : (pure a : Step α) s = .ok b s' ↔ a = b ∧ s = s' := by
  rw [pure_apply, EStateM.Result.ok.injEq]

end Bind

/-! ### Stages -/

/-- A state of an import without what no chunk depends on: the source and the offset of
the cursor, the number of the last line, the catalog and the events so far. -/
structure Stage where
  source : Source
  position : Nat
  line : Int
  catalog : Catalog
  events : List Event

/-- The stage of a state. -/
def State.stage (s : State) : Stage :=
  ⟨s.cursor.source, s.cursor.position, s.line, s.catalog, s.events.toList⟩

namespace Stage

/-- No byte is left. -/
def AtEnd (g : Stage) : Prop := g.source.bytes.length ≤ g.position

/-- The line at the cursor, with the number that it gets. -/
def here (g : Stage) : PhysicalLine := lineFound g.source.bytes g.position (g.line + 1)

/-- The cursor has been moved to where it stands. -/
def reopened (g : Stage) : Stage := { g with source := g.source.moved g.position }

/-- The line at the cursor has been counted, but the cursor stands before it. -/
def counted (g : Stage) : Stage := { g with line := g.line + 1 }

/-- The line at the cursor has been counted and read. -/
def past (g : Stage) : Stage := { g.counted with position := g.here.stop }

/-- An entry has been reported unless it is empty. -/
def reported (g : Stage) (e : Option Chunk) : Stage :=
  { g with events := g.events ++ (e.map Chunk.event).toList }

/-- The constant of a chunk has been declared, if it has one. -/
def declaring (g : Stage) (c : Chunk) : Stage :=
  match Constant.ofChunk? c with
  | none => g
  | some constant => { g with catalog := g.catalog.declare constant }

/-- What the line at the cursor is read with. -/
def context (g : Stage) (settings : Settings) : LineContext :=
  ⟨g.catalog.path, settings.mode, visibleMacros (visibleCatalogs settings.includes g.catalog)⟩

/-- The line at the cursor is classified as a header, and is one when it is read again. -/
structure Opens (g : Stage) (mode : Mode) (header : MacroHeader) : Prop where
  first : ¬ g.AtEnd
  again : ¬ g.reopened.AtEnd
  kind : g.here.kind = .macroDef
  header : g.reopened.here.header? mode = some header

/-- The definition that begins at the cursor, when its body has been taken up to the
stage `g'`. -/
def definition (g : Stage) (header : MacroHeader) (entries : List (Option Chunk))
    (g' : Stage) : Chunk :=
  ⟨g'.catalog.path, g.position, g.line + 1, g'.position - g.position,
    .macroDef ⟨header.name, header.parameters, entries, true⟩⟩

/-- The definition has been reported behind its body, and before it that the body has no
end, if it has none. -/
def closed (g : Stage) (header : MacroHeader) (entries : List (Option Chunk)) (ended : Bool)
    (g' : Stage) : Stage :=
  { g' with events := g'.events ++
      if ended then [] else [Event.unterminated header.name (g.line + 1)] }
    |>.reported (some (g.definition header entries g'))

@[simp] theorem reported_none (g : Stage) : g.reported none = g := by
  simp [reported]

end Stage

/-- A dispatch that takes no body goes from the stage `g` to another one and gives an
entry.  The kind is that of the line at the cursor, and the rest comes of the line that is
found there again. -/
inductive Plain (settings : Settings) (g : Stage) : Option Chunk → Stage → Prop where
  | atEnd (hend : g.AtEnd) : Plain settings g none g
  | gone (hfirst : ¬ g.AtEnd) (hend : g.reopened.AtEnd) :
      Plain settings g none g.reopened.counted
  | comment {c : Chunk} (hfirst : ¬ g.AtEnd) (hagain : ¬ g.reopened.AtEnd)
      (hkind : g.here.kind = .comment) (hc : c = g.reopened.here.commentChunk g.catalog.path) :
      Plain settings g (some c) (g.reopened.past.reported (some c))
  | statement {c : Chunk} (hfirst : ¬ g.AtEnd) (hagain : ¬ g.reopened.AtEnd)
      (hkind : g.here.kind = .statement)
      (hc : c = g.reopened.here.statementChunk (g.context settings)) (hblank : c.isBlank = false) :
      Plain settings g (some c) ((g.reopened.past.declaring c).reported (some c))
  | blank {c : Chunk} (hfirst : ¬ g.AtEnd) (hagain : ¬ g.reopened.AtEnd)
      (hkind : g.here.kind = .statement)
      (hc : c = g.reopened.here.statementChunk (g.context settings)) (hblank : c.isBlank = true) :
      Plain settings g none (g.reopened.past.declaring c)
  | malformed {c : Chunk} (hfirst : ¬ g.AtEnd) (hagain : ¬ g.reopened.AtEnd)
      (hkind : g.here.kind = .macroDef)
      (hheader : g.reopened.here.header? settings.mode = none)
      (hc : c = g.reopened.here.malformed (g.context settings)) :
      Plain settings g (some c)
        ({ g.reopened.past with
            events := g.events ++
              [Event.malformedHeader (g.line + 1) (Text.normalize g.reopened.here.text)] }
          |>.reported (some c))

/-! ### Steps of reading -/

section Reading

variable {s s' : State}

/-- A step of reading that fails leaves the state as it was. -/
theorem reading_eq_error {α : Type} {r : Reading α} {e : ImportError}
    (h : reading r s = .error e s') :
    ∃ reason, r s.cursor = .error reason ∧ e = .unread reason ∧ s' = s := by
  rw [reading] at h
  split at h
  · exact absurd h (by simp)
  · obtain ⟨rfl, rfl⟩ := EStateM.Result.error.inj h
    exact ⟨_, ‹_›, rfl, rfl⟩

theorem atEnd_cases {b : Bool} (h : reading Cursor.atEnd s = .ok b s') :
    (b = true ↔ s.stage.AtEnd) ∧ s'.stage = s.stage := by
  rw [reading, Cursor.atEnd] at h
  split at h
  · rename_i a cursor hread
    split at hread
    · exact absurd hread (by simp)
    · obtain ⟨rfl, rfl⟩ := Prod.mk.inj (Except.ok.inj hread)
      obtain ⟨rfl, rfl⟩ := EStateM.Result.ok.inj h
      refine ⟨?_, rfl⟩
      rw [List.isEmpty_iff, Cursor.rest, Source.bytesFrom, List.drop_eq_nil_iff]
      exact Iff.rfl
  · exact absurd h (by simp)

theorem lineAt_eq_nil_iff (source : Source) (position : Nat) :
    source.lineAt position = [] ↔ source.bytes.length ≤ position := by
  rw [Source.lineAt, throughNewline_eq_nil, Source.bytesFrom, List.drop_eq_nil_iff]

/-- A line is read and the cursor goes behind it, or nothing is left and nothing happens. -/
theorem readLine_cases {text : Option Text} (h : reading Cursor.readLine s = .ok text s') :
    (s.stage.AtEnd ∧ text = none ∧ s' = s) ∨
      (¬ s.stage.AtEnd ∧ text = some s.stage.here.text ∧
        s'.stage = { s.stage with position := s.stage.here.stop } ∧
        s'.cursor.lastLength = s.stage.here.contentLength) := by
  rw [reading, Cursor.readLine] at h
  split at h
  · rename_i a cursor hread
    split at hread
    · exact absurd hread (by simp)
    · dsimp only at hread
      split at hread
      · rename_i hempty
        obtain ⟨rfl, rfl⟩ := Prod.mk.inj (Except.ok.inj hread)
        obtain ⟨rfl, rfl⟩ := EStateM.Result.ok.inj h
        exact Or.inl ⟨(lineAt_eq_nil_iff ..).mp (List.isEmpty_iff.mp hempty), rfl, rfl⟩
      · rename_i hleft
        obtain ⟨rfl, rfl⟩ := Prod.mk.inj (Except.ok.inj hread)
        obtain ⟨rfl, rfl⟩ := EStateM.Result.ok.inj h
        refine Or.inr ⟨fun hend => hleft ?_, rfl, rfl, rfl⟩
        exact List.isEmpty_iff.mpr ((lineAt_eq_nil_iff ..).mpr hend)
  · exact absurd h (by simp)

theorem seek_cases {offset : Nat} {u : Unit} (h : reading (Cursor.seek offset) s = .ok u s') :
    s'.stage = { s.stage with
      source := s.cursor.source.moved offset
      position := offset } := by
  rw [reading, Cursor.seek] at h
  split at h
  · rename_i a cursor hseek
    split at hseek
    · exact absurd hseek (by simp)
    · obtain ⟨-, rfl⟩ := Prod.mk.inj (Except.ok.inj hseek)
      obtain ⟨-, rfl⟩ := EStateM.Result.ok.inj h
      rfl
  · exact absurd h (by simp)

/-- To look at a line is to read it and to move to where the cursor stood. -/
theorem peekLine_eq_ok {text : Option Text} (h : reading Cursor.peekLine s = .ok text s') :
    ∃ s₁ : State, reading Cursor.readLine s = .ok text s₁ ∧
      reading (Cursor.seek s.cursor.position) s₁ = .ok () s' := by
  rw [reading, Cursor.peekLine] at h
  cases hread : Cursor.readLine s.cursor with
  | error reason =>
    rw [hread] at h
    exact absurd h (by simp)
  | ok found =>
    rw [hread] at h
    dsimp only at h
    cases hseek : Cursor.seek s.cursor.position found.2 with
    | error reason =>
      rw [hseek] at h
      exact absurd h (by simp)
    | ok moved =>
      rw [hseek] at h
      obtain ⟨rfl, rfl⟩ := EStateM.Result.ok.inj h
      refine ⟨{ s with cursor := found.2 }, ?_, ?_⟩
      · rw [reading, hread]
      · rw [reading, hseek]

/-- A line is looked at, and the cursor is moved to where it stood. -/
theorem peekLine_cases {text : Option Text} (h : reading Cursor.peekLine s = .ok text s')
    (hleft : ¬ s.stage.AtEnd) :
    text = some s.stage.here.text ∧ s'.stage = s.stage.reopened := by
  obtain ⟨s₁, hread, hseek⟩ := peekLine_eq_ok h
  rcases readLine_cases hread with ⟨hend, -⟩ | ⟨-, htext, hs₁, -⟩
  · exact absurd hend hleft
  · refine ⟨htext, ?_⟩
    have hsource : s₁.cursor.source = s.cursor.source := congrArg Stage.source hs₁
    rw [seek_cases hseek, hs₁, hsource]
    rfl

/-- A parser that goes back to a line that was read and counted finds the line that is
there now, if there is one. -/
theorem lineAt_cases {g : Stage} (hs : s.stage = g.past) {text : Option Text}
    (h : lineAt g.position s = .ok text s') :
    (g.reopened.AtEnd ∧ text = none ∧ s'.stage = g.reopened.counted) ∨
      (¬ g.reopened.AtEnd ∧ text = some g.reopened.here.text ∧ s'.stage = g.reopened.past ∧
        s'.cursor.lastLength = g.reopened.here.contentLength) := by
  rw [lineAt] at h
  obtain ⟨u, s₁, hseek, hread⟩ := bind_eq_ok.mp h
  have hs₁ : s₁.stage = g.reopened.counted := by
    have hsource : s.cursor.source = g.source := congrArg Stage.source hs
    rw [seek_cases hseek, hs, hsource]
    rfl
  rcases readLine_cases hread with ⟨hend, rfl, rfl⟩ | ⟨hleft, rfl, hs', hlength⟩
  · rw [hs₁] at hend
    exact Or.inl ⟨hend, rfl, hs₁⟩
  · rw [hs₁] at hleft hs' hlength ⊢
    exact Or.inr ⟨hleft, rfl, hs', hlength⟩

/-- A check that lets the import go on does nothing. -/
theorem checkInterrupt_ok {settings : Settings} {u : Unit}
    (h : checkInterrupt settings s = .ok u s') : s' = s := by
  rw [checkInterrupt, bind_apply, get_apply] at h
  dsimp only at h
  split at h
  · exact absurd h (by simp [throw_apply])
  · split at h
    · exact absurd h (by simp [throw_apply])
    · exact (EStateM.Result.ok.inj h).2.symm

end Reading

/-! ### Parsers -/

section Parsers

variable {settings : Settings} {g : Stage} {s s' : State} {e : Option Chunk}

theorem comment_cases (hs : s.stage = g.past)
    (h : Import.comment g.position (g.line + 1) s = .ok e s') :
    (g.reopened.AtEnd ∧ e = none ∧ s'.stage = g.reopened.counted) ∨
      (¬ g.reopened.AtEnd ∧ e = some (g.reopened.here.commentChunk g.catalog.path) ∧
        s'.stage = g.reopened.past) := by
  rw [Import.comment] at h
  obtain ⟨text, s₁, hline, h⟩ := bind_eq_ok.mp h
  rcases lineAt_cases hs hline with ⟨hend, rfl, hs₁⟩ | ⟨hleft, rfl, hs₁, hlength⟩
  · obtain ⟨rfl, rfl⟩ := pure_eq_ok.mp h
    exact Or.inl ⟨hend, rfl, hs₁⟩
  · have hpath : s₁.catalog.path = g.catalog.path := congrArg (·.catalog.path) hs₁
    simp only [bind_apply, get_apply, place_apply, hlength, hpath] at h
    obtain ⟨rfl, rfl⟩ := pure_eq_ok.mp h
    exact Or.inr ⟨hleft, rfl, hs₁⟩

theorem statement_cases (hs : s.stage = g.past)
    (h : Import.statement settings g.position (g.line + 1) s = .ok e s') :
    (g.reopened.AtEnd ∧ e = none ∧ s'.stage = g.reopened.counted) ∨
      (¬ g.reopened.AtEnd ∧
        e = some (g.reopened.here.statementChunk (g.context settings)) ∧
        s'.stage = g.reopened.past.declaring
          (g.reopened.here.statementChunk (g.context settings))) := by
  rw [Import.statement] at h
  obtain ⟨text, s₁, hline, h⟩ := bind_eq_ok.mp h
  rcases lineAt_cases hs hline with ⟨hend, rfl, hs₁⟩ | ⟨hleft, rfl, hs₁, -⟩
  · obtain ⟨rfl, rfl⟩ := pure_eq_ok.mp h
    exact Or.inl ⟨hend, rfl, hs₁⟩
  · -- The length is measured with the cursor, which has moved over the line.
    have hlength : s₁.cursor.position - g.position = g.reopened.here.bytes.length := by
      rw [show s₁.cursor.position = g.reopened.here.stop from congrArg Stage.position hs₁]
      exact Nat.add_sub_cancel_left ..
    have hcatalog : s₁.catalog = g.catalog := congrArg Stage.catalog hs₁
    simp only [bind_apply, position_apply, get_apply, place_apply, hlength, hcatalog] at h
    have hc : (⟨g.catalog.path, g.position, g.line + 1, g.reopened.here.bytes.length,
        .statement (.parse settings.mode (visibleMacros (visibleCatalogs settings.includes
          g.catalog)) g.reopened.here.text)⟩ : Chunk) =
        g.reopened.here.statementChunk (g.context settings) := rfl
    rw [hc] at h
    refine Or.inr ⟨hleft, ?_⟩
    rw [Stage.declaring]
    cases hconstant : Constant.ofChunk? (g.reopened.here.statementChunk (g.context settings)) with
    | none =>
      rw [hconstant] at h
      obtain ⟨rfl, rfl⟩ := EStateM.Result.ok.inj h
      exact ⟨rfl, hs₁⟩
    | some constant =>
      rw [hconstant] at h
      obtain ⟨rfl, rfl⟩ := EStateM.Result.ok.inj h
      refine ⟨rfl, ?_⟩
      rw [← hs₁]
      rfl

theorem stage_emit (s : State) (event : Event) :
    ({ s with events := s.events.push event } : State).stage =
      { s.stage with events := s.stage.events ++ [event] } := by
  rw [State.stage, Array.toList_push]
  rfl

theorem macroDef_cases {body : Step (List (Option Chunk) × Bool)} (hs : s.stage = g.past)
    (h : Import.macroDef settings body g.position (g.line + 1) s = .ok e s') :
    (g.reopened.AtEnd ∧ e = none ∧ s'.stage = g.reopened.counted) ∨
      (¬ g.reopened.AtEnd ∧ g.reopened.here.header? settings.mode = none ∧
        e = some (g.reopened.here.malformed (g.context settings)) ∧
        s'.stage = { g.reopened.past with
          events := g.events ++
            [.malformedHeader (g.line + 1) (Text.normalize g.reopened.here.text)] }) ∨
      (¬ g.reopened.AtEnd ∧ ∃ header entries ended s₁ s₂,
        g.reopened.here.header? settings.mode = some header ∧ s₁.stage = g.reopened.past ∧
        body s₁ = .ok (entries, ended) s₂ ∧ e = some (g.definition header entries s₂.stage) ∧
        s'.stage = { s₂.stage with
          events := s₂.stage.events ++
            if ended then [] else [.unterminated header.name (g.line + 1)] }) := by
  rw [Import.macroDef] at h
  obtain ⟨text, s₁, hline, h⟩ := bind_eq_ok.mp h
  rcases lineAt_cases hs hline with ⟨hend, rfl, hs₁⟩ | ⟨hleft, rfl, hs₁, -⟩
  · obtain ⟨rfl, rfl⟩ := pure_eq_ok.mp h
    exact Or.inl ⟨hend, rfl, hs₁⟩
  refine Or.inr ?_
  dsimp only at h
  cases hheader : MacroHeader.parse? settings.mode (Text.normalize g.reopened.here.text) with
  | none =>
    have hlength : s₁.cursor.position - g.position = g.reopened.here.bytes.length := by
      rw [show s₁.cursor.position = g.reopened.here.stop from congrArg Stage.position hs₁]
      exact Nat.add_sub_cancel_left ..
    have hpath : s₁.catalog.path = g.catalog.path := congrArg (·.catalog.path) hs₁
    rw [hheader] at h
    simp only [bind_apply, position_apply, emit, modify_apply, place_apply, hlength,
      hpath] at h
    obtain ⟨rfl, rfl⟩ := pure_eq_ok.mp h
    refine Or.inl ⟨hleft, hheader, rfl, ?_⟩
    rw [stage_emit, hs₁]
    rfl
  | some header =>
    rw [hheader] at h
    obtain ⟨⟨entries, ended⟩, s₂, hbody, h⟩ := bind_eq_ok.mp h
    refine Or.inr ⟨hleft, header, entries, ended, s₁, s₂, hheader, hs₁, hbody, ?_⟩
    cases ended with
    | true =>
      obtain ⟨rfl, rfl⟩ := EStateM.Result.ok.inj h
      refine ⟨rfl, ?_⟩
      rw [if_pos rfl, List.append_nil]
    | false =>
      obtain ⟨rfl, rfl⟩ := EStateM.Result.ok.inj h
      exact ⟨rfl, stage_emit ..⟩

theorem report_cases {found : Option Chunk} {start : Nat} {line : Int}
    (hfound : ∀ c, found = some c → c.position = start ∧ c.line = line)
    (h : report start line found s = .ok e s') :
    e = found.filter (!·.isBlank) ∧ s'.stage = s.stage.reported e := by
  rw [report] at h
  cases hfilter : found.filter (!·.isBlank) with
  | none =>
    rw [hfilter] at h
    obtain ⟨rfl, rfl⟩ := pure_eq_ok.mp h
    exact ⟨rfl, (Stage.reported_none _).symm⟩
  | some c =>
    rw [hfilter] at h
    obtain ⟨rfl, rfl⟩ := EStateM.Result.ok.inj h
    obtain ⟨rfl, rfl⟩ := hfound c (Option.filter_eq_some_iff.mp hfilter).1
    exact ⟨rfl, stage_emit ..⟩

end Parsers

/-- When a dispatch has read a line, it counts it and goes on with the parser for its
kind. -/
theorem chunk_eq {settings : Settings} {body : Step (List (Option Chunk) × Bool)}
    {s s₁ : State} (hread : reading Cursor.readLine s = .ok (some s.stage.here.text) s₁) :
    chunk settings body s =
      (parserOf settings body s.stage.here >>= report s.stage.position (s.stage.line + 1))
        { s₁ with line := s.line + 1 } := by
  have hkind : ChunkKind.classify (some s.stage.here.text) = .ok s.stage.here.kind := rfl
  have hline : s₁.line = s.line := by
    rcases readLine_cases hread with ⟨-, hnone, -⟩ | ⟨-, -, hs₁, -⟩
    · exact absurd hnone (by simp)
    · exact congrArg Stage.line hs₁
  have hnext : nextLine s₁ = .ok (s.line + 1) { s₁ with line := s.line + 1 } := by
    rw [nextLine_apply, hline]
  conv =>
    lhs
    simp only [chunk, bind_apply, position_apply, hread, hkind, hnext]
  rw [parserOf]
  cases s.stage.here.kind <;> rfl

/-- A dispatch at the end does nothing, and any other one reads and counts a line and goes
on with the parser for its kind. -/
theorem chunk_eq_ok {settings : Settings} {body : Step (List (Option Chunk) × Bool)}
    {s s' : State} {e : Option Chunk} (h : chunk settings body s = .ok e s') :
    (s.stage.AtEnd ∧ e = none ∧ s' = s) ∨
      (¬ s.stage.AtEnd ∧ ∃ s₁, s₁.stage = s.stage.past ∧
        (parserOf settings body s.stage.here >>=
          report s.stage.position (s.stage.line + 1)) s₁ = .ok e s') := by
  obtain ⟨start, s₀, hstart, h'⟩ := bind_eq_ok.mp h
  obtain ⟨rfl, rfl⟩ := EStateM.Result.ok.inj hstart
  obtain ⟨text, s₁, hread, h'⟩ := bind_eq_ok.mp h'
  rcases readLine_cases hread with ⟨hend, rfl, rfl⟩ | ⟨hleft, rfl, hs₁, -⟩
  · obtain ⟨rfl, rfl⟩ := pure_eq_ok.mp h'
    exact Or.inl ⟨hend, rfl, rfl⟩
  · refine Or.inr ⟨hleft, { s₁ with line := s.line + 1 }, ?_, chunk_eq hread ▸ h⟩
    show ({ s₁.stage with line := s.line + 1 } : Stage) = _
    rw [hs₁]
    rfl

/-- What a dispatch that succeeds has done: it has taken no body, or it has taken one by
`body`. -/
theorem chunk_cases {settings : Settings} {body : Step (List (Option Chunk) × Bool)}
    {s s' : State} {e : Option Chunk} (h : chunk settings body s = .ok e s') :
    Plain settings s.stage e s'.stage ∨
      ∃ header entries ended s₁ s₂, s.stage.Opens settings.mode header ∧
        s₁.stage = s.stage.reopened.past ∧ body s₁ = .ok (entries, ended) s₂ ∧
        e = some (s.stage.definition header entries s₂.stage) ∧
        s'.stage = s.stage.closed header entries ended s₂.stage := by
  rcases chunk_eq_ok h with ⟨hend, rfl, rfl⟩ | ⟨hleft, s₁, hs₁, h⟩
  · exact Or.inl (.atEnd hend)
  obtain ⟨found, s₂, hparse, hreport⟩ := bind_eq_ok.mp h
  have hreported (hfound : ∀ c, found = some c →
      c.position = s.stage.position ∧ c.line = s.stage.line + 1) := report_cases hfound hreport
  rw [parserOf] at hparse
  cases hkind : s.stage.here.kind with
  | comment =>
    rw [hkind] at hparse
    rcases comment_cases hs₁ hparse with ⟨hend, rfl, hs₂⟩ | ⟨hagain, rfl, hs₂⟩
    · obtain ⟨rfl, hs'⟩ := hreported (by simp)
      rw [hs', hs₂, Option.filter_none, Stage.reported_none]
      exact Or.inl (.gone hleft hend)
    · obtain ⟨rfl, hs'⟩ := hreported fun c hc => Option.some.inj hc ▸ ⟨rfl, rfl⟩
      rw [hs', hs₂, Option.filter_some_pos rfl]
      exact Or.inl (.comment hleft hagain hkind rfl)
  | statement =>
    rw [hkind] at hparse
    rcases statement_cases hs₁ hparse with ⟨hend, rfl, hs₂⟩ | ⟨hagain, rfl, hs₂⟩
    · obtain ⟨rfl, hs'⟩ := hreported (by simp)
      rw [hs', hs₂, Option.filter_none, Stage.reported_none]
      exact Or.inl (.gone hleft hend)
    · obtain ⟨rfl, hs'⟩ := hreported fun c hc => Option.some.inj hc ▸ ⟨rfl, rfl⟩
      rw [hs', hs₂]
      cases hblank :
          (s.stage.reopened.here.statementChunk (s.stage.context settings)).isBlank with
      | true =>
        rw [Option.filter_some_neg (by simp [hblank]), Stage.reported_none]
        exact Or.inl (.blank hleft hagain hkind rfl hblank)
      | false =>
        rw [Option.filter_some_pos (by simp [hblank])]
        exact Or.inl (.statement hleft hagain hkind rfl hblank)
  | macroDef =>
    rw [hkind] at hparse
    rcases macroDef_cases hs₁ hparse with ⟨hend, rfl, hs₂⟩ | ⟨hagain, hheader, rfl, hs₂⟩ |
      ⟨hagain, header, entries, ended, s₃, s₄, hheader, hs₃, hbody, rfl, hs₂⟩
    · obtain ⟨rfl, hs'⟩ := hreported (by simp)
      rw [hs', hs₂, Option.filter_none, Stage.reported_none]
      exact Or.inl (.gone hleft hend)
    · obtain ⟨rfl, hs'⟩ := hreported fun c hc => Option.some.inj hc ▸ ⟨rfl, rfl⟩
      rw [hs', hs₂, Option.filter_some_pos rfl]
      exact Or.inl (.malformed hleft hagain hkind hheader rfl)
    · obtain ⟨rfl, hs'⟩ := hreported fun c hc => Option.some.inj hc ▸ ⟨rfl, rfl⟩
      refine Or.inr ⟨header, entries, ended, s₃, s₄, ⟨hleft, hagain, hkind, hheader⟩, hs₃,
        hbody, Option.filter_some_pos rfl, ?_⟩
      rw [hs', hs₂, Option.filter_some_pos rfl]
      rfl

end Import

end AsmCatalog
