/-
Where the bytes of an import come from.

A source is read at a position and moved to another one.  It need not be reliable: it
may fail from some offset on, it may ask the import to stop once a byte at some offset
has been handed out, and its bytes may be replaced when it is moved to some offset for
the first time.

Main definitions:
* `Source` — the bytes and what may go wrong with them;
* `Source.lineAt` — the bytes of the line at a position, with its terminator;
* `Source.failure?` — why an attempt to read at an offset fails;
* `Source.moved` — the source after a move.
-/
import AsmCatalog.Text.Utf8

namespace AsmCatalog

/-- The byte that ends a line. -/
def newline : UInt8 := 10

/-- The bytes up to and including the first newline. -/
def throughNewline : Bytes → Bytes
  | [] => []
  | b :: rest => if b = newline then [b] else b :: throughNewline rest

/-- Every attempt to read at `offset` or above it fails. -/
structure Fault where
  offset : Nat
  reason : Text

/-- The bytes are replaced by `bytes` at the first move to `offset`. -/
structure Replacement where
  offset : Nat
  bytes : Bytes

/-- Stored bytes, and what may go wrong while they are read. -/
structure Source where
  bytes : Bytes
  fault : Option Fault := none
  stopFrom : Option Nat := none
  replacement : Option Replacement := none
  immovable : Option Text := none

namespace Source

/-- The bytes from `position` on. -/
def bytesFrom (s : Source) (position : Nat) : Bytes := s.bytes.drop position

/-- The bytes of the line at `position`, with its terminator. -/
def lineAt (s : Source) (position : Nat) : Bytes := throughNewline (s.bytesFrom position)

/-- The last offset at which a read of the line at `position` touches the source: its
newline, or the end of the bytes if it has none. -/
def lastTouched (s : Source) (position : Nat) : Nat :=
  let line := s.lineAt position
  if newline ∈ line then position + line.length - 1 else position + line.length

/-- Why an attempt to read at `offset` fails, if it does. -/
def failure? (s : Source) (offset : Nat) : Option Text :=
  s.fault.bind fun f => if f.offset ≤ offset then some f.reason else none

/-- Whether handing out `count` bytes from `position` on asks the import to stop. -/
def stopsWithin (s : Source) (position count : Nat) : Bool :=
  match s.stopFrom with
  | some offset => 0 < count && offset < position + count
  | none => false

/-- The source after a move to `offset`. -/
def moved (s : Source) (offset : Nat) : Source :=
  match s.replacement with
  | some r => if r.offset = offset then { s with bytes := r.bytes, replacement := none } else s
  | none => s

/-- A bound on the number of bytes that the source can hold at any time. -/
def capacity (s : Source) : Nat :=
  max s.bytes.length ((s.replacement.map (·.bytes.length)).getD 0)

end Source

/-- Reliable bytes. -/
def Source.ofBytes (bytes : Bytes) : Source := { bytes }

@[simp] theorem throughNewline_nil : throughNewline [] = [] := rfl

theorem throughNewline_prefix (bytes : Bytes) : throughNewline bytes <+: bytes := by
  induction bytes with
  | nil => exact List.prefix_rfl
  | cons b rest ih =>
      rw [throughNewline]
      split
      · exact ⟨rest, rfl⟩
      · simpa using ih

theorem throughNewline_eq_nil {bytes : Bytes} : throughNewline bytes = [] ↔ bytes = [] := by
  cases bytes with
  | nil => simp
  | cons b rest =>
      rw [throughNewline]
      split <;> simp

/-- The first newline is among the first bytes, or it comes behind them. -/
theorem throughNewline_append (a b : Bytes) :
    throughNewline (a ++ b) = if newline ∈ a then throughNewline a else a ++ throughNewline b := by
  induction a with
  | nil => rfl
  | cons c a ih =>
    rw [List.cons_append, throughNewline, throughNewline, ih]
    by_cases hc : c = newline
    · rw [if_pos hc, if_pos hc, if_pos (hc ▸ List.mem_cons_self)]
    · rw [if_neg hc, if_neg hc]
      have hmem : newline ∈ c :: a ↔ newline ∈ a := by
        rw [List.mem_cons, or_iff_right (fun h => hc h.symm)]
      by_cases ha : newline ∈ a
      · rw [if_pos ha, if_pos (hmem.mpr ha)]
      · rw [if_neg ha, if_neg (fun h => ha (hmem.mp h))]
        rfl

end AsmCatalog
