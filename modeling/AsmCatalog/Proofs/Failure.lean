/-
How an import can fail.

An import fails when a step of reading fails, or when a check finds that it has been asked
to stop or that its time is over.  What a property of the cursor says of these few actions
holds of the whole import: if every one of them keeps the property, so does the import, and
its errors are theirs.

Main definitions:
* `Import.Within` — an action keeps a property of the cursor, and its errors are of a kind;
* `Import.Governs` — the actions that can fail do so;
* `Source.Movable`, `Cursor.On` — a property of sources that a move keeps;
* `ImportError.From` — errors that such sources make.

Main statements:
* `Import.Governs.run` — what governs these actions governs the whole import;
* `Catalog.ofSource_from` — an import in time gives a file or an error of its source;
* `Catalog.exists_ok_of_sound` — without faults it gives a file.
-/
import AsmCatalog.Proofs.ReliableImport

namespace AsmCatalog

namespace Import

/-- An action keeps the property `I` of the cursor, and fails only with errors of the kind
`C`. -/
structure Within {α : Type} (I : Cursor → Prop) (C : ImportError → Prop) (m : Step α) : Prop where
  ok {s s' : State} {a : α} : I s.cursor → m s = .ok a s' → I s'.cursor
  error {s s' : State} {e : ImportError} : I s.cursor → m s = .error e s' → I s'.cursor ∧ C e

section Within

variable {α β : Type} {I : Cursor → Prop} {C : ImportError → Prop}

namespace Within

theorem pure (a : α) : Within I C (Pure.pure a) where
  ok hs h := by
    obtain ⟨-, rfl⟩ := EStateM.Result.ok.inj h
    exact hs
  error _ h := absurd h (by simp [pure_apply])

theorem bind {m : Step α} {k : α → Step β} (hm : Within I C m) (hk : ∀ a, Within I C (k a)) :
    Within I C (m >>= k) where
  ok hs h := by
    rw [bind_apply] at h
    split at h
    · exact (hk _).ok (hm.ok hs ‹_›) h
    · exact absurd h (by simp)
  error hs h := by
    rw [bind_apply] at h
    split at h
    · exact (hk _).error (hm.ok hs ‹_›) h
    · obtain ⟨rfl, rfl⟩ := EStateM.Result.error.inj h
      exact hm.error hs ‹_›

/-- An action that looks at the state goes on with what it has seen. -/
theorem get_bind {k : State → Step β} (hk : ∀ s, I s.cursor → Within I C (k s)) :
    Within I C (get >>= k) where
  ok hs h := (hk _ hs).ok hs h
  error hs h := (hk _ hs).error hs h

theorem modify {g : State → State} (hg : ∀ s, (g s).cursor = s.cursor) :
    Within I C (modify g) where
  ok hs h := by
    obtain ⟨-, rfl⟩ := EStateM.Result.ok.inj h
    rw [hg]
    exact hs
  error _ h := absurd h (by simp [modify_apply])

theorem ite {c : Prop} [Decidable c] {m k : Step α} (hm : Within I C m) (hk : Within I C k) :
    Within I C (if c then m else k) := by
  split
  · exact hm
  · exact hk

theorem throw {e : ImportError} (he : C e) : Within I C (throw e : Step α) where
  ok _ h := absurd h (by simp [throw_apply])
  error hs h := by
    obtain ⟨rfl, rfl⟩ := EStateM.Result.error.inj h
    exact ⟨hs, he⟩

end Within

/-- A step of reading keeps the property `I`, and fails only with errors of the kind `C`. -/
structure Reads (I : Cursor → Prop) (C : ImportError → Prop) (r : Reading α) : Prop where
  ok {c c' : Cursor} {a : α} : I c → r c = .ok (a, c') → I c'
  error {c : Cursor} {reason : Text} : I c → r c = .error reason → C (.unread reason)

theorem Reads.within {r : Reading α} (h : Reads I C r) : Within I C (reading r) where
  ok hs hr := by
    rw [reading] at hr
    split at hr
    · obtain ⟨-, rfl⟩ := EStateM.Result.ok.inj hr
      exact h.ok hs ‹_›
    · exact absurd hr (by simp)
  error hs hr := by
    rw [reading] at hr
    split at hr
    · exact absurd hr (by simp)
    · obtain ⟨rfl, rfl⟩ := EStateM.Result.error.inj hr
      exact ⟨hs, h.error hs ‹_›⟩

/-- The actions of an import that can fail keep the property `I`, and fail only with errors
of the kind `C`. -/
structure Governs (settings : Settings) (I : Cursor → Prop) (C : ImportError → Prop) : Prop where
  atEnd : Reads I C Cursor.atEnd
  readLine : Reads I C Cursor.readLine
  seek (offset : Nat) : Reads I C (Cursor.seek offset)
  stopped {c : Cursor} (path : SourcePath) (line : Int) :
    I c → c.stopped = true → C (.cancelled path line)
  timeOver (path : SourcePath) (line : Int) : settings.timeOver = true → C (.expired path line)

end Within

namespace Governs

variable {settings : Settings} {I : Cursor → Prop} {C : ImportError → Prop}
  {inner : Step (List (Option Chunk) × Bool)}

theorem peekLine (hg : Governs settings I C) : Reads I C Cursor.peekLine where
  ok hc h := by
    rw [Cursor.peekLine] at h
    split at h
    · exact absurd h (by simp)
    · split at h
      · exact absurd h (by simp)
      · obtain ⟨-, rfl⟩ := Prod.mk.inj (Except.ok.inj h)
        exact (hg.seek _).ok (hg.readLine.ok hc ‹_›) ‹_›
  error hc h := by
    rw [Cursor.peekLine] at h
    split at h
    · obtain rfl := Except.error.inj h
      exact hg.readLine.error hc ‹_›
    · split at h
      · obtain rfl := Except.error.inj h
        exact (hg.seek _).error (hg.readLine.ok hc ‹_›) ‹_›
      · exact absurd h (by simp)

theorem checkInterrupt (hg : Governs settings I C) :
    Within I C (checkInterrupt settings) := by
  refine .get_bind fun s hs => ?_
  split
  · exact .throw (hg.stopped _ _ hs ‹_›)
  · split
    · exact .throw (hg.timeOver _ _ ‹_›)
    · exact .pure ()

theorem emit (e : Event) : Within I C (emit e) := .modify fun _ => rfl

theorem position : Within I C position := .get_bind fun s _ => .pure s.cursor.position

theorem nextLine : Within I C nextLine :=
  .bind (.modify fun _ => rfl) fun _ => .get_bind fun s _ => .pure s.line

theorem lineAt (hg : Governs settings I C) (start : Nat) : Within I C (lineAt start) :=
  .bind (hg.seek start).within fun _ => hg.readLine.within

theorem place (start : Nat) (line : Int) (length : Nat) (content : Content Chunk) :
    Within I C (place start line length content) :=
  .get_bind fun s _ => .pure (⟨s.catalog.path, start, line, length, content⟩ : Chunk)

theorem comment (hg : Governs settings I C) (start : Nat) (line : Int) :
    Within I C (comment start line) := by
  refine .bind (hg.lineAt start) fun text => ?_
  cases text with
  | none => exact .pure none
  | some text => exact .get_bind fun s _ => .bind (place _ _ _ _) fun c => .pure (some c)

theorem statement (hg : Governs settings I C) (start : Nat) (line : Int) :
    Within I C (statement settings start line) := by
  refine .bind (hg.lineAt start) fun text => ?_
  cases text with
  | none => exact .pure none
  | some text =>
    refine .bind position fun stop => .get_bind fun s _ => .bind (place _ _ _ _) fun c => ?_
    cases Constant.ofChunk? c with
    | none => exact .pure (some c)
    | some constant => exact .bind (.modify fun _ => rfl) fun _ => .pure (some c)

theorem macroDef (hg : Governs settings I C) (hinner : Within I C inner) (start : Nat)
    (line : Int) : Within I C (macroDef settings inner start line) := by
  refine .bind (hg.lineAt start) fun text => ?_
  cases text with
  | none => exact .pure none
  | some text =>
    dsimp only
    cases MacroHeader.parse? settings.mode (Text.normalize text) with
    | none =>
      exact .bind position fun stop => .bind (emit _) fun _ => .bind (place _ _ _ _) fun c =>
        .pure (some c)
    | some header =>
      refine .bind hinner fun taken => .bind position fun stop => ?_
      cases taken.2 with
      | true => exact .bind (place _ _ _ _) fun c => .pure (some c)
      | false => exact .bind (emit _) fun _ => .bind (place _ _ _ _) fun c => .pure (some c)

theorem chunk (hg : Governs settings I C) (hinner : Within I C inner) :
    Within I C (chunk settings inner) := by
  refine .bind position fun start => .bind hg.readLine.within fun text => ?_
  cases ChunkKind.classify text with
  | error e => exact .pure none
  | ok kind =>
    refine .bind nextLine fun line => ?_
    have hreport (found : Option Chunk) : Within I C (report start line found) := by
      rw [report]
      cases found.filter (!·.isBlank) with
      | none => exact .pure none
      | some c => exact .bind (emit _) fun _ => .pure (some c)
    cases kind with
    | comment => exact .bind (hg.comment start line) hreport
    | macroDef => exact .bind (hg.macroDef hinner start line) hreport
    | statement => exact .bind (hg.statement start line) hreport

theorem body (hg : Governs settings I C) (fuel : Nat) (taken : List (Option Chunk)) :
    Within I C (Import.body settings fuel taken) := by
  induction fuel generalizing taken with
  | zero => exact .pure _
  | succ fuel ih =>
    refine .bind hg.atEnd.within fun atEnd => .ite (.pure _) ?_
    refine .bind hg.checkInterrupt fun _ => .bind hg.peekLine.within fun line => ?_
    cases line with
    | none => exact .pure _
    | some line => exact .bind (hg.chunk (ih [])) fun entry => .ite (.pure _) (ih _)

theorem scan (hg : Governs settings I C) (fuel : Nat) : Within I C (scan settings fuel) := by
  induction fuel with
  | zero => exact .pure _
  | succ fuel ih =>
    refine .bind hg.atEnd.within fun atEnd => .ite (.pure _) ?_
    refine .bind hg.checkInterrupt fun _ => .bind (hg.chunk (hg.body fuel [])) fun c => ?_
    cases c with
    | none => exact ih
    | some c => exact .bind (.modify fun _ => rfl) fun _ => ih

theorem run (hg : Governs settings I C) : Within I C (run settings) :=
  .get_bind fun _ _ => .bind (hg.scan _) fun _ => .get_bind fun _ _ => emit _

end Governs

end Import

/-! ### Sources -/

/-- The sources with the property `P` can be moved, and stay such sources. -/
structure Source.Movable (P : Source → Prop) : Prop where
  movable {s : Source} : P s → s.immovable = none
  moved {s : Source} (offset : Nat) : P s → P (s.moved offset)

theorem Source.moved_stopFrom (s : Source) (offset : Nat) :
    (s.moved offset).stopFrom = s.stopFrom := by
  rw [moved]
  split
  · split
    · rfl
    · rfl
  · rfl

/-- A cursor over a source with the property `P`, which has been asked to stop only if that
source asks for it. -/
structure Cursor.On (P : Source → Prop) (c : Cursor) : Prop where
  source : P c.source
  stopped : c.stopped = true → c.source.stopFrom.isSome = true

theorem Cursor.On.handedOut {P : Source → Prop} {c : Cursor} (h : c.On P) (count : Nat) :
    (c.handedOut count).On P where
  source := h.source
  stopped := by
    rw [Cursor.handedOut, Bool.or_eq_true]
    rintro (hstopped | hstops)
    · exact h.stopped hstopped
    · rw [Source.stopsWithin] at hstops
      split at hstops
      · exact Option.isSome_of_eq_some ‹_›
      · exact absurd hstops (by simp)

/-- Errors that the sources with the property `P` make: those of their faults, and that
the import has been asked to stop if they ask for it. -/
inductive ImportError.From (P : Source → Prop) : ImportError → Prop where
  | unread {s : Source} {f : Fault} (hs : P s) (hfault : s.fault = some f) :
      ImportError.From P (.unread f.reason)
  | cancelled {s : Source} (hs : P s) (hstop : s.stopFrom.isSome = true) (path : SourcePath)
      (line : Int) : ImportError.From P (.cancelled path line)

theorem ImportError.From.of_failure? {P : Source → Prop} {s : Source} {offset : Nat}
    {reason : Text} (hs : P s) (h : s.failure? offset = some reason) :
    ImportError.From P (.unread reason) := by
  rw [Source.failure?] at h
  obtain ⟨f, hf, hreason⟩ := Option.bind_eq_some_iff.mp h
  split at hreason
  · obtain rfl := Option.some.inj hreason
    exact .unread hs hf
  · exact absurd hreason (by simp)

/-- An import in time makes the errors of its source, and no others. -/
theorem Import.governs_from {settings : Settings} (htime : settings.timeOver = false)
    {P : Source → Prop} (hP : Source.Movable P) :
    Governs settings (Cursor.On P) (ImportError.From P) where
  atEnd := by
    constructor
    · intro c c' a hc h
      rw [Cursor.atEnd] at h
      split at h
      · exact absurd h (by simp)
      · obtain ⟨-, rfl⟩ := Prod.mk.inj (Except.ok.inj h)
        exact hc.handedOut _
    · intro c reason hc h
      rw [Cursor.atEnd] at h
      split at h
      · obtain rfl := Except.error.inj h
        exact .of_failure? hc.source ‹_›
      · exact absurd h (by simp)
  readLine := by
    constructor
    · intro c c' a hc h
      rw [Cursor.readLine] at h
      split at h
      · exact absurd h (by simp)
      · dsimp only at h
        split at h
        · obtain ⟨-, rfl⟩ := Prod.mk.inj (Except.ok.inj h)
          exact hc
        · obtain ⟨-, rfl⟩ := Prod.mk.inj (Except.ok.inj h)
          have hout := hc.handedOut (c.source.lineAt c.position).length
          exact ⟨hout.source, hout.stopped⟩
    · intro c reason hc h
      rw [Cursor.readLine] at h
      split at h
      · obtain rfl := Except.error.inj h
        exact .of_failure? hc.source ‹_›
      · dsimp only at h
        split at h
        · exact absurd h (by simp)
        · exact absurd h (by simp)
  seek offset := by
    constructor
    · intro c c' a hc h
      rw [Cursor.seek, hP.movable hc.source] at h
      obtain ⟨-, rfl⟩ := Prod.mk.inj (Except.ok.inj h)
      refine ⟨hP.moved offset hc.source, fun hstopped => ?_⟩
      rw [Source.moved_stopFrom]
      exact hc.stopped hstopped
    · intro c reason hc h
      rw [Cursor.seek, hP.movable hc.source] at h
      exact absurd h (by simp)
  stopped path line hc hstopped := .cancelled hc.source (hc.stopped hstopped) path line
  timeOver path line hover := absurd (htime.symm.trans hover) (by simp)

namespace Catalog

variable {settings : Import.Settings} {path : SourcePath} {source : Source} {start : Nat}
  {P : Source → Prop}

/-- An import in time gives a file or an error of its source. -/
theorem ofSource_from (htime : settings.timeOver = false) (hP : Source.Movable P)
    (hsource : P source) :
    (∃ file, (ofSource settings path source start false).result = .ok file) ∨
      ∃ e : ImportError, (ofSource settings path source start false).result = .error e ∧
        e.From P := by
  have hon : (⟨source, start, 0, false⟩ : Cursor).On P :=
    ⟨hsource, fun hstopped => absurd hstopped (by simp)⟩
  have hopen : Cursor.open? source start false = .ok ⟨source, start, 0, false⟩ := by
    rw [Cursor.open?, hP.movable hsource]
  rw [ofSource, hopen]
  dsimp only
  cases hrun : Import.run settings ⟨⟨source, start, 0, false⟩, -1, { path }, #[]⟩ with
  | ok u s => exact Or.inl ⟨_, rfl⟩
  | error e s => exact Or.inr ⟨e, rfl, ((Import.governs_from htime hP).run.error hon hrun).2⟩

/-- Without faults, and if nothing asks it to stop, it gives a file. -/
theorem exists_ok_of_sound (htime : settings.timeOver = false) (hP : Source.Movable P)
    (hsource : P source) (hsound : ∀ s, P s → s.fault = none ∧ s.stopFrom = none) :
    ∃ file, (ofSource settings path source start false).result = .ok file := by
  rcases ofSource_from htime hP hsource with hok | ⟨e, -, hfrom⟩
  · exact hok
  · cases hfrom with
    | unread hs hfault => exact absurd ((hsound _ hs).1.symm.trans hfault) (by simp)
    | cancelled hs hstop => exact absurd hstop (by simp [(hsound _ hs).2])

end Catalog

end AsmCatalog
