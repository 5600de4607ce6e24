/-
Changes of a source that an import does not notice.

An import knows its source through the answers of its cursor alone.  If a change of sources
leaves these answers as they are wherever a cursor can stand, it changes neither the file nor
the events, nor the error of an import that fails.

Main definitions:
* `Source.Unnoticed` — a change of sources that no cursor notices;
* `Import.Misses` — a step of reading that does not notice a change.

Main statement:
* `Catalog.ofSource_change` — an import does not notice what no cursor notices.
-/
import AsmCatalog.Proofs.Lockstep

namespace AsmCatalog

/-! ### Changes that no cursor notices -/

namespace Source

/-- A change of sources that no cursor notices: wherever it stands, the lines have the same
texts and lengths, and the source fails and asks the import to stop at the same places. -/
structure Unnoticed (change : Source → Source) : Prop where
  immovable : ∀ s, (change s).immovable = s.immovable
  failure : ∀ s offset, (change s).failure? offset = s.failure? offset
  stops : ∀ s position count,
    (change s).stopsWithin position count = s.stopsWithin position count
  moved : ∀ s offset, (change s).moved offset = change (s.moved offset)
  capacity : ∀ s, (change s).capacity = s.capacity
  length : ∀ s, (change s).bytes.length = s.bytes.length
  touched : ∀ s position, (change s).lastTouched position = s.lastTouched position
  lineLength : ∀ s position, ((change s).lineAt position).length = (s.lineAt position).length
  contentLength : ∀ s position, (withoutTerminator ((change s).lineAt position)).length =
    (withoutTerminator (s.lineAt position)).length
  text : ∀ s position, lineText position ((change s).lineAt position) =
    lineText position (s.lineAt position)

end Source

/-- The cursor over the changed source. -/
def Cursor.changed (change : Source → Source) (c : Cursor) : Cursor :=
  { c with source := change c.source }

namespace Import

variable {change : Source → Source}

/-- A step of reading gives the same over the changed source, or fails for the same
reason. -/
def Misses {α : Type} (change : Source → Source) (r : Reading α) : Prop :=
  ∀ c, r (c.changed change) = (r c).map (Prod.map id (Cursor.changed change))

/-- Such a step over the changed source follows the step over the source itself. -/
theorem Misses.echoes {α : Type} {r : Reading α} (h : Misses change r) (failing : Prop) :
    Echoes (fun c d => d = c.changed change) failing r r where
  ok {c c₁ _ a} hd hr := by
    refine ⟨c₁.changed change, ?_, rfl⟩
    rw [hd, h c, hr]
    rfl
  error {c _ reason} _ hd hr := by
    rw [hd, h c, hr]
    rfl

/-! ### Steps of reading -/

theorem handedOut_changed (h : Source.Unnoticed change) (c : Cursor) (count : Nat) :
    (c.changed change).handedOut count = (c.handedOut count).changed change := by
  rw [Cursor.handedOut, Cursor.handedOut]
  simp only [Cursor.changed, h.stops]

theorem misses_atEnd (h : Source.Unnoticed change) : Misses change Cursor.atEnd := by
  intro c
  have hlength : (c.changed change).rest.length = c.rest.length := by
    simp only [Cursor.rest, Cursor.changed, Source.bytesFrom, List.length_drop, h.length]
  have hempty : (c.changed change).rest.isEmpty = c.rest.isEmpty := by
    rw [Bool.eq_iff_iff, List.isEmpty_iff_length_eq_zero, List.isEmpty_iff_length_eq_zero, hlength]
  rw [Cursor.atEnd, Cursor.atEnd, hlength, hempty, handedOut_changed h]
  rw [show (c.changed change).source = change c.source from rfl,
    show (c.changed change).position = c.position from rfl, h.failure]
  cases c.source.failure? c.position <;> rfl

theorem misses_readLine (h : Source.Unnoticed change) : Misses change Cursor.readLine := by
  intro c
  have hempty : ((change c.source).lineAt c.position).isEmpty =
      (c.source.lineAt c.position).isEmpty := by
    rw [Bool.eq_iff_iff, List.isEmpty_iff_length_eq_zero, List.isEmpty_iff_length_eq_zero,
      h.lineLength]
  rw [Cursor.readLine, Cursor.readLine]
  rw [show (c.changed change).source = change c.source from rfl,
    show (c.changed change).position = c.position from rfl, h.touched, h.failure]
  cases c.source.failure? (c.source.lastTouched c.position) with
  | some reason => rfl
  | none =>
    dsimp only
    rw [hempty]
    by_cases hline : (c.source.lineAt c.position).isEmpty = true
    · rw [if_pos hline, if_pos hline]
      rfl
    · rw [if_neg hline, if_neg hline, h.lineLength, h.contentLength, h.text,
        handedOut_changed h]
      rfl

theorem misses_seek (h : Source.Unnoticed change) (offset : Nat) :
    Misses change (Cursor.seek offset) := by
  intro c
  rw [Cursor.seek, Cursor.seek]
  simp only [Cursor.changed, h.immovable, h.moved]
  cases c.source.immovable <;> rfl

/-- So imports of the source and of the changed source are in lockstep. -/
theorem lockstep_changed (h : Source.Unnoticed change) (settings : Settings) :
    Lockstep (fun c d => d = c.changed change) True settings settings where
  position hd := hd ▸ rfl
  lastLength hd := hd ▸ rfl
  capacity {c _} hd := hd ▸ h.capacity c.source
  atEnd := (misses_atEnd h).echoes True
  readLine := (misses_readLine h).echoes True
  seek offset := (misses_seek h offset).echoes True
  mode := rfl
  visible _ := rfl
  interrupt := follows_checkInterrupt (fun hd => hd ▸ rfl) rfl

end Import

/-- An import does not notice what no cursor notices. -/
theorem Catalog.ofSource_change {change : Source → Source} (h : Source.Unnoticed change)
    (settings : Import.Settings) (path : SourcePath) (source : Source) (start : Nat)
    (stopped : Bool) :
    ofSource settings path (change source) start stopped =
      ofSource settings path source start stopped :=
  ofSource_of_lockstep (Import.lockstep_changed h settings) (fun hd => hd ▸ rfl)
    (h.immovable source) rfl path

end AsmCatalog
