/-
Two imports in lockstep.

An import knows its source through the answers of its cursor, and its settings through the
mode, the files that it sees and the time.  Two imports that are answered alike give the same
values, the same catalogs and the same events, also when their sources are different.  The
second import may be asked to follow the first one only where it succeeds, or in its failures
too.

Main definitions:
* `Import.Echoes`, `Import.Follows` — a step of reading and an action that do what another one
  does;
* `Import.Lockstep` — cursors and settings by which one import follows another.

Main statements:
* `Import.Lockstep.chunk`, `Import.Lockstep.body`, `Import.Lockstep.run` — the parts and the
  whole of an import in lockstep;
* `Catalog.ofSource_of_lockstep` — imports that also fail in lockstep come to the same.
-/
import AsmCatalog.Proofs.Dispatch

namespace AsmCatalog

namespace Import

section

variable (R : Cursor → Cursor → Prop) (failing : Prop)

/-- Between cursors that `R` relates, a step of reading gives what another one gives, and
with `failing` it fails for the same reason. -/
structure Echoes {α : Type} (r r' : Reading α) : Prop where
  ok {c c₁ d : Cursor} {a : α} : R c d → r c = .ok (a, c₁) → ∃ d₁, r' d = .ok (a, d₁) ∧ R c₁ d₁
  error {c d : Cursor} {reason : Text} :
    failing → R c d → r c = .error reason → r' d = .error reason

/-- Between states that differ in their cursors alone, an action does what another one does,
and with `failing` it fails alike. -/
structure Follows {α : Type} (m m' : Step α) : Prop where
  ok {s s₁ : State} {d : Cursor} {a : α} : R s.cursor d → m s = .ok a s₁ →
    ∃ d₁, m' { s with cursor := d } = .ok a { s₁ with cursor := d₁ } ∧ R s₁.cursor d₁
  error {s s₁ : State} {d : Cursor} {e : ImportError} : failing → R s.cursor d →
    m s = .error e s₁ →
      ∃ d₁, m' { s with cursor := d } = .error e { s₁ with cursor := d₁ } ∧ R s₁.cursor d₁

/-- Cursors and settings with which one import follows another: what is read is the same, and
so is all that is asked of a cursor or of the settings. -/
structure Lockstep (x x' : Settings) : Prop where
  position {c d : Cursor} : R c d → d.position = c.position
  lastLength {c d : Cursor} : R c d → d.lastLength = c.lastLength
  capacity {c d : Cursor} : R c d → d.source.capacity = c.source.capacity
  atEnd : Echoes R failing Cursor.atEnd Cursor.atEnd
  readLine : Echoes R failing Cursor.readLine Cursor.readLine
  seek (offset : Nat) : Echoes R failing (Cursor.seek offset) (Cursor.seek offset)
  mode : x'.mode = x.mode
  visible (file : Catalog) : visibleCatalogs x'.includes file = visibleCatalogs x.includes file
  interrupt : Follows R failing (checkInterrupt x) (checkInterrupt x')

end

variable {R : Cursor → Cursor → Prop} {failing : Prop}

/-! ### Actions that follow others -/

theorem Echoes.refl {α : Type} (r : Reading α) (failing : Prop) :
    Echoes (fun c d => d = c) failing r r where
  ok hd hr := ⟨_, hd ▸ hr, rfl⟩
  error _ hd hr := hd ▸ hr

namespace Follows

variable {α β : Type}

theorem pure (a : α) : Follows R failing (Pure.pure a) (Pure.pure a) where
  ok hR h := by
    obtain ⟨rfl, rfl⟩ := EStateM.Result.ok.inj h
    exact ⟨_, rfl, hR⟩
  error _ _ h := absurd h (by simp [pure_apply])

theorem throw (e : ImportError) :
    Follows R failing (throw e : Step α) (throw e) where
  ok _ h := absurd h (by simp [throw_apply])
  error _ hR h := by
    obtain ⟨rfl, rfl⟩ := EStateM.Result.error.inj h
    exact ⟨_, rfl, hR⟩

theorem bind {m m' : Step α} {k k' : α → Step β} (hm : Follows R failing m m')
    (hk : ∀ a, Follows R failing (k a) (k' a)) : Follows R failing (m >>= k) (m' >>= k') where
  ok hR h := by
    obtain ⟨a, s₁, hs₁, h⟩ := bind_eq_ok.mp h
    obtain ⟨d₁, hm', hR₁⟩ := hm.ok hR hs₁
    obtain ⟨d₂, hk', hR₂⟩ := (hk a).ok hR₁ h
    exact ⟨d₂, bind_eq_ok.mpr ⟨a, _, hm', hk'⟩, hR₂⟩
  error hfailing hR h := by
    rcases bind_eq_error.mp h with h | ⟨a, s₁, hs₁, h⟩
    · obtain ⟨d₁, hm', hR₁⟩ := hm.error hfailing hR h
      exact ⟨d₁, bind_eq_error.mpr (Or.inl hm'), hR₁⟩
    · obtain ⟨d₁, hm', hR₁⟩ := hm.ok hR hs₁
      obtain ⟨d₂, hk', hR₂⟩ := (hk a).error hfailing hR₁ h
      exact ⟨d₂, bind_eq_error.mpr (Or.inr ⟨a, _, hm', hk'⟩), hR₂⟩

/-- An action that looks at the state goes on with what the two states have in common. -/
theorem get_bind {k k' : State → Step α}
    (hk : ∀ s d, R s.cursor d → Follows R failing (k s) (k' { s with cursor := d })) :
    Follows R failing (get >>= k) (get >>= k') where
  ok hR h := (hk _ _ hR).ok hR h
  error hfailing hR h := (hk _ _ hR).error hfailing hR h

/-- A change of the state that has nothing to do with its cursor. -/
theorem modify {g : State → State}
    (hg : ∀ s d, g { s with cursor := d } = { g s with cursor := d })
    (hcursor : ∀ s, (g s).cursor = s.cursor) :
    Follows R failing (modify g) (modify g) where
  ok {s _ d _} hR h := by
    obtain ⟨-, rfl⟩ := EStateM.Result.ok.inj h
    refine ⟨d, ?_, (hcursor s).symm ▸ hR⟩
    rw [modify_apply, hg]
  error _ _ h := absurd h (by simp [modify_apply])

theorem reading {r r' : Reading α} (hr : Echoes R failing r r') :
    Follows R failing (reading r) (reading r') where
  ok {s _ d _} hR h := by
    rw [Import.reading] at h
    split at h
    · rename_i a c hc
      obtain ⟨rfl, rfl⟩ := EStateM.Result.ok.inj h
      obtain ⟨d₁, hr', hR₁⟩ := hr.ok hR hc
      refine ⟨d₁, ?_, hR₁⟩
      rw [Import.reading, hr']
    · exact absurd h (by simp)
  error {s _ d _} hfailing hR h := by
    obtain ⟨reason, hreason, rfl, rfl⟩ := reading_eq_error h
    refine ⟨d, ?_, hR⟩
    rw [Import.reading, hr.error hfailing hR hreason]

theorem ite {c : Prop} [Decidable c] {m m' k k' : Step α} (hm : Follows R failing m m')
    (hk : Follows R failing k k') :
    Follows R failing (if c then m else k) (if c then m' else k') := by
  split
  · exact hm
  · exact hk

end Follows

theorem follows_emit (e : Event) : Follows R failing (emit e) (emit e) :=
  .modify (fun _ _ => rfl) fun _ => rfl

theorem follows_nextLine : Follows R failing nextLine nextLine :=
  .bind (.modify (fun _ _ => rfl) fun _ => rfl) fun _ => .get_bind fun s _ _ => .pure s.line

theorem follows_place (start : Nat) (line : Int) (length : Nat) (content : Content Chunk) :
    Follows R failing (place start line length content) (place start line length content) :=
  .get_bind fun s _ _ => .pure (⟨s.catalog.path, start, line, length, content⟩ : Chunk)

theorem follows_report (start : Nat) (line : Int) (found : Option Chunk) :
    Follows R failing (report start line found) (report start line found) := by
  rw [report]
  cases found.filter (!·.isBlank) with
  | none => exact .pure none
  | some c => exact .bind (follows_emit _) fun _ => .pure (some c)

/-- Imports that are asked to stop at once, and are given the same time, are interrupted at
once. -/
theorem follows_checkInterrupt {x x' : Settings}
    (hstopped : ∀ {c d}, R c d → d.stopped = c.stopped) (htime : x'.timeOver = x.timeOver) :
    Follows R failing (checkInterrupt x) (checkInterrupt x') := by
  refine .get_bind fun s d hR => ?_
  rw [hstopped hR, htime]
  exact .ite (.throw _) (.ite (.throw _) (.pure _))

/-! ### Imports in lockstep -/

namespace Lockstep

variable {x x' : Settings} (h : Lockstep R failing x x')
include h

/-- The line is read, and the cursor is put back where it was. -/
theorem peekLine : Echoes R failing Cursor.peekLine Cursor.peekLine where
  ok {c c₂ d text} hR hpeek := by
    rw [Cursor.peekLine] at hpeek ⊢
    split at hpeek
    · exact absurd hpeek (by simp)
    · rename_i line c₁ hread
      obtain ⟨d₁, hread', hR₁⟩ := h.readLine.ok hR hread
      split at hpeek
      · exact absurd hpeek (by simp)
      · rename_i u c₃ hseek
        obtain ⟨d₂, hseek', hR₂⟩ := (h.seek c.position).ok hR₁ hseek
        obtain ⟨rfl, rfl⟩ := Prod.mk.inj (Except.ok.inj hpeek)
        refine ⟨d₂, ?_, hR₂⟩
        rw [hread']
        dsimp only
        rw [h.position hR, hseek']
  error {c d reason} hfailing hR hpeek := by
    rw [Cursor.peekLine] at hpeek ⊢
    split at hpeek
    · rename_i why hread
      rw [h.readLine.error hfailing hR hread, ← Except.error.inj hpeek]
    · rename_i line c₁ hread
      obtain ⟨d₁, hread', hR₁⟩ := h.readLine.ok hR hread
      split at hpeek
      · rename_i why hseek
        rw [hread']
        dsimp only
        rw [h.position hR, (h.seek c.position).error hfailing hR₁ hseek, ← Except.error.inj hpeek]
      · exact absurd hpeek (by simp)

theorem follows_position : Follows R failing Import.position Import.position :=
  .get_bind fun s d hR => by
    rw [show State.cursor { s with cursor := d } = d from rfl, h.position hR]
    exact .pure s.cursor.position

theorem lineAt (start : Nat) : Follows R failing (lineAt start) (lineAt start) :=
  .bind (.reading (h.seek start)) fun _ => .reading h.readLine

theorem comment (start : Nat) (line : Int) :
    Follows R failing (comment start line) (comment start line) := by
  refine .bind (h.lineAt start) fun text => ?_
  cases text with
  | none => exact .pure none
  | some text =>
    refine .get_bind fun s d hR => ?_
    rw [show State.cursor { s with cursor := d } = d from rfl, h.lastLength hR]
    exact .bind (follows_place _ _ _ _) fun c => .pure (some c)

theorem statement (start : Nat) (line : Int) :
    Follows R failing (statement x start line) (statement x' start line) := by
  refine .bind (h.lineAt start) fun text => ?_
  cases text with
  | none => exact .pure none
  | some text =>
    refine .bind h.follows_position fun stop => .get_bind fun s _ _ => ?_
    rw [h.mode, h.visible]
    refine .bind (follows_place _ _ _ _) fun c => ?_
    cases Constant.ofChunk? c with
    | none => exact .pure (some c)
    | some constant =>
      exact .bind (.modify (fun _ _ => rfl) fun _ => rfl) fun _ => .pure (some c)

variable {inner inner' : Step (List (Option Chunk) × Bool)}

theorem macroDef (hinner : Follows R failing inner inner') (start : Nat) (line : Int) :
    Follows R failing (macroDef x inner start line) (macroDef x' inner' start line) := by
  refine .bind (h.lineAt start) fun text => ?_
  cases text with
  | none => exact .pure none
  | some text =>
    dsimp only
    rw [h.mode]
    cases MacroHeader.parse? x.mode (Text.normalize text) with
    | none =>
      exact .bind h.follows_position fun stop => .bind (follows_emit _) fun _ =>
        .bind (follows_place _ _ _ _) fun c => .pure (some c)
    | some header =>
      refine .bind hinner fun taken => .bind h.follows_position fun stop => ?_
      cases taken.2 with
      | true => exact .bind (follows_place _ _ _ _) fun c => .pure (some c)
      | false =>
        exact .bind (follows_emit _) fun _ =>
          .bind (follows_place _ _ _ _) fun c => .pure (some c)

theorem chunk (hinner : Follows R failing inner inner') :
    Follows R failing (chunk x inner) (chunk x' inner') := by
  refine .bind h.follows_position fun start => .bind (.reading h.readLine) fun text => ?_
  cases ChunkKind.classify text with
  | error e => exact .pure none
  | ok kind =>
    refine .bind follows_nextLine fun line => ?_
    cases kind with
    | comment => exact .bind (h.comment start line) (follows_report start line)
    | macroDef => exact .bind (h.macroDef hinner start line) (follows_report start line)
    | statement => exact .bind (h.statement start line) (follows_report start line)

theorem body (fuel : Nat) (taken : List (Option Chunk)) :
    Follows R failing (body x fuel taken) (body x' fuel taken) := by
  induction fuel generalizing taken with
  | zero => exact .pure _
  | succ fuel ih =>
    refine .bind (.reading h.atEnd) fun atEnd => .ite (.pure _) ?_
    refine .bind h.interrupt fun _ => .bind (.reading h.peekLine) fun line => ?_
    cases line with
    | none => exact .pure _
    | some line =>
      -- The induction serves the nested body as well as the lines behind it.
      exact .bind (h.chunk (ih [])) fun entry => .ite (.pure _) (ih _)

theorem scan (fuel : Nat) : Follows R failing (scan x fuel) (scan x' fuel) := by
  induction fuel with
  | zero => exact .pure _
  | succ fuel ih =>
    refine .bind (.reading h.atEnd) fun atEnd => .ite (.pure _) ?_
    refine .bind h.interrupt fun _ => .bind (h.chunk (h.body fuel [])) fun c => ?_
    cases c with
    | none => exact ih
    | some c => exact .bind (.modify (fun _ _ => rfl) fun _ => rfl) fun _ => ih

theorem run : Follows R failing (run x) (run x') := by
  refine .get_bind fun s d hR => ?_
  -- The fuel is a bound on the bytes, which both cursors have in common.
  rw [show State.cursor { s with cursor := d } = d from rfl, h.capacity hR]
  exact .bind (h.scan _) fun _ => .get_bind fun s _ _ => follows_emit _

end Lockstep

end Import

/-- Imports that succeed and fail in lockstep come to the same. -/
theorem Catalog.ofSource_of_lockstep {R : Cursor → Cursor → Prop} {x x' : Import.Settings}
    {source source' : Source} {start : Nat} {stopped : Bool}
    (h : Import.Lockstep R True x x')
    (hstopped : ∀ {c d}, R c d → d.stopped = c.stopped)
    (hopen : source'.immovable = source.immovable)
    (hR : R ⟨source, start, 0, stopped⟩ ⟨source', start, 0, stopped⟩) (path : SourcePath) :
    ofSource x' path source' start stopped = ofSource x path source start stopped := by
  rw [ofSource, ofSource, Cursor.open?, Cursor.open?, hopen]
  cases source.immovable with
  | some reason => rfl
  | none =>
    dsimp only
    cases hrun : Import.run x ⟨⟨source, start, 0, stopped⟩, -1, { path }, #[]⟩ with
    | ok u s =>
      obtain ⟨d, hrun', hd⟩ := h.run.ok hR hrun
      dsimp only at hrun'
      rw [hrun']
      dsimp only
      rw [hstopped hd]
    | error e s =>
      obtain ⟨d, hrun', hd⟩ := h.run.error trivial hR hrun
      dsimp only at hrun'
      rw [hrun']
      dsimp only
      rw [hstopped hd]

end AsmCatalog
