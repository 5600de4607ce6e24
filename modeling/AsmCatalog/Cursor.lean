/-
A cursor that reads a source line by line and knows where each line is stored.

Positions and lengths count stored bytes.  The text of a line is decoded without its
terminator, its tabs become spaces, and a byte order mark at the very start of the
source is hidden.

Main definitions:
* `Cursor` — a source, a position in it, and the length of the last line read;
* `Cursor.atEnd`, `Cursor.readLine`, `Cursor.peekLine`, `Cursor.seek` — the operations,
  which fail only when the source does;
* `lineText` — the text of a stored line.
-/
import AsmCatalog.Source
import AsmCatalog.Text.Normal

namespace AsmCatalog

/-- The stored line without a final `\n` or `\r\n`. -/
def withoutTerminator (line : Bytes) : Bytes :=
  match line.reverse with
  | 10 :: 13 :: rest => rest.reverse
  | 10 :: rest => rest.reverse
  | _ => line

/-- The text without a byte order mark at its start. -/
def withoutMark : Text → Text
  | '\uFEFF' :: rest => rest
  | text => text

theorem withoutMark_of_head?_ne {text : Text} (h : text.head? ≠ some '\uFEFF') :
    withoutMark text = text := by
  rw [withoutMark.eq_def]
  split
  · exact absurd rfl h
  · rfl

/-- The text of a line that is stored at `position`. -/
def lineText (position : Nat) (line : Bytes) : Text :=
  let text := Utf8.decode (withoutTerminator line)
  Text.expandTabs (if position = 0 then withoutMark text else text)

/-- A source, the offset of the next unread line, the stored length of the last line
read without its terminator, and whether the import has been asked to stop. -/
structure Cursor where
  source : Source
  position : Nat
  lastLength : Nat := 0
  stopped : Bool := false

/-- A step of reading, which moves a cursor or fails for the source's reason. -/
abbrev Reading := StateT Cursor (Except Text)

namespace Cursor

/-- The bytes that have not been read. -/
def rest (c : Cursor) : Bytes := c.source.bytesFrom c.position

/-- The cursor after `count` bytes at its position have been handed out. -/
def handedOut (c : Cursor) (count : Nat) : Cursor :=
  { c with stopped := c.stopped || c.source.stopsWithin c.position count }

/-- A cursor on a source that stands at `position`.  The source is asked where it
stands, so it has to be movable. -/
def open? (source : Source) (position : Nat) (stopped : Bool) : Except Text Cursor :=
  match source.immovable with
  | some reason => .error reason
  | none => .ok { source, position, stopped }

/-- Whether no byte is left.  The test touches the byte at the cursor. -/
def atEnd : Reading Bool := fun c =>
  match c.source.failure? c.position with
  | some reason => .error reason
  | none => .ok (c.rest.isEmpty, c.handedOut (min 1 c.rest.length))

/-- The next line, or nothing at the end.  The cursor moves past the terminator. -/
def readLine : Reading (Option Text) := fun c =>
  match c.source.failure? (c.source.lastTouched c.position) with
  | some reason => .error reason
  | none =>
    let line := c.source.lineAt c.position
    if line.isEmpty then .ok (none, c)
    else
      let c' := c.handedOut line.length
      .ok (some (lineText c.position line),
        { c' with
          position := c.position + line.length
          lastLength := (withoutTerminator line).length })

/-- The cursor moves to an offset of the source, which may lie beyond the end. -/
def seek (offset : Nat) : Reading Unit := fun c =>
  match c.source.immovable with
  | some reason => .error reason
  | none => .ok ((), { c with source := c.source.moved offset, position := offset })

/-- The next line without moving past it: it is read, and the cursor is put back. -/
def peekLine : Reading (Option Text) := fun c =>
  match readLine c with
  | .error reason => .error reason
  | .ok (line, c') =>
    match seek c.position c' with
    | .error reason => .error reason
    | .ok (_, c'') => .ok (line, c'')

end Cursor

end AsmCatalog
