/-
A cursor that reads through a buffer.

The cursor of an import only knows an offset.  A cursor over a buffered reader counts the bytes
of its lines beside a source that has been read ahead of it, and it drops what was fetched when
it is moved.  Seen from outside the two are one: whatever has been done with the buffered
cursor before, it answers by the offset that it has come to, and no read of the source can be
told from its answers.

Main definitions:
* `BufferedCursor` — a buffered reader, the offset of the next line, and the last length;
* `BufferedCursor.shown` — what is seen of it, which is a cursor on the same bytes;
* `Cursor.Operation`, `Cursor.performAll`, `BufferedCursor.performAll` — operations in a row;
* `BufferedCursor.ReadsOut` — lines are read until there is none;
* `ReadRange.IsLine`, `Covers` — the ranges of bytes that are read;
* `BufferedCursor.Memoryless` — what a cursor answers by its position.

Main statements:
* `BufferedCursor.perform_shown`, `BufferedCursor.performAll_shown` — an operation, and
  operations in a row, do the same to what is seen;
* `BufferedCursor.ReadsOut.covers` — what is read consists of the bytes that are left;
* `BufferedCursor.memoryless_of_performAll` — a cursor has no memory but its position.
-/
import AsmCatalog.Cursor
import AsmCatalog.Proofs.BufferedReader
import AsmCatalog.Proofs.ReliableLine

namespace AsmCatalog

/-- A reader, the offset of the next line, and the stored length of the last line read without
its terminator. -/
structure BufferedCursor where
  reader : BufferedReader
  position : Nat
  lastLength : Nat := 0

/-! ### Operations -/

namespace BufferedCursor

/-- A cursor on bytes that stand at `start`, with the most bytes that each read gives. -/
def ofBytes (bytes : Bytes) (share : Nat → Nat) (start : Nat) : BufferedCursor :=
  { reader := { bytes, share, offset := start }, position := start }

/-- Whether no byte is left, for which the reader has to fetch one. -/
def atEnd (c : BufferedCursor) : Bool × BufferedCursor :=
  (c.reader.fill.fetched.isEmpty, { c with reader := c.reader.fill })

/-- The next line, or nothing at the end. -/
def readLine (c : BufferedCursor) : Option Text × BufferedCursor :=
  let taken := c.reader.takeLine
  if taken.1 = [] then (none, { c with reader := taken.2 })
  else
    (some (lineText c.position taken.1),
      { reader := taken.2
        position := c.position + taken.1.length
        lastLength := (withoutTerminator taken.1).length })

/-- The cursor moves to an offset, and what the reader has fetched is dropped. -/
def seek (offset : Nat) (c : BufferedCursor) : BufferedCursor :=
  { c with reader := c.reader.seek offset, position := offset }

/-- The next line: it is read, and the cursor is put back. -/
def peekLine (c : BufferedCursor) : Option Text × BufferedCursor :=
  (c.readLine.1, c.readLine.2.seek c.position)

end BufferedCursor

/-- What can be done with a cursor. -/
inductive Cursor.Operation where
  | readLine
  | peekLine
  | atEnd
  | seek (offset : Nat)

/-- What an operation answers. -/
inductive Cursor.Answer where
  | line (text : Option Text)
  | atEnd (finished : Bool)
  | moved
deriving DecidableEq

/-- An operation of a cursor. -/
def Cursor.perform : Operation → Reading Answer
  | .readLine => return .line (← readLine)
  | .peekLine => return .line (← peekLine)
  | .atEnd => return .atEnd (← Cursor.atEnd)
  | .seek offset => do
    seek offset
    return .moved

/-- Operations in a row, with their answers. -/
def Cursor.performAll : List Operation → Reading (List Answer)
  | [] => return []
  | op :: later => do
    let answer ← perform op
    let answers ← performAll later
    return answer :: answers

/-- A step of reading that succeeds hands its value and its cursor on. -/
theorem Cursor.bind_of_ok {α β : Type} {r : Reading α} {k : α → Reading β} {c c' : Cursor} {a : α}
    (h : r c = .ok (a, c')) : (r >>= k) c = k a c' := by
  show (r c >>= fun found => k found.1 found.2) = _
  rw [h]
  rfl

namespace BufferedCursor

/-- An operation of a buffered cursor. -/
def perform : Cursor.Operation → BufferedCursor → Cursor.Answer × BufferedCursor
  | .readLine, c => (.line c.readLine.1, c.readLine.2)
  | .peekLine, c => (.line c.peekLine.1, c.peekLine.2)
  | .atEnd, c => (.atEnd c.atEnd.1, c.atEnd.2)
  | .seek offset, c => (.moved, c.seek offset)

/-- Operations in a row, with their answers. -/
def performAll : List Cursor.Operation → BufferedCursor → List Cursor.Answer × BufferedCursor
  | [], c => ([], c)
  | op :: later, c =>
    let first := perform op c
    let behind := performAll later first.2
    (first.1 :: behind.1, behind.2)

/-! ### What is seen of a buffered cursor -/

/-- What is seen of a cursor: its bytes, where it stands, and the last length. -/
def shown (c : BufferedCursor) : Cursor :=
  { source := .ofBytes c.reader.bytes, position := c.position, lastLength := c.lastLength }

/-- The reader stands where the cursor does. -/
def InStep (c : BufferedCursor) : Prop := c.reader.StandsAt c.position

variable {c : BufferedCursor}

theorem inStep_ofBytes (bytes : Bytes) (share : Nat → Nat) (start : Nat) :
    (ofBytes bytes share start).InStep := rfl

theorem inStep_seek (offset : Nat) (c : BufferedCursor) : (c.seek offset).InStep :=
  c.reader.standsAt_seek offset

/-- The stored line at the cursor. -/
def line (c : BufferedCursor) : Bytes := throughNewline (c.reader.bytes.drop c.position)

theorem line_eq_nil : c.line = [] ↔ c.reader.bytes.length ≤ c.position := by
  rw [line, throughNewline_eq_nil, List.drop_eq_nil_iff]

theorem readLine_eq_none (h : c.InStep) (hend : c.reader.bytes.length ≤ c.position) :
    c.readLine = (none, { c with reader := c.reader.takeLine.2 }) := by
  have hnothing : c.reader.takeLine.1 = [] := h.takeLine.1.trans (line_eq_nil.mpr hend)
  rw [readLine, if_pos hnothing]

theorem readLine_eq_some (h : c.InStep) (hleft : c.position < c.reader.bytes.length) :
    c.readLine =
      (some (lineText c.position c.line),
        { reader := c.reader.takeLine.2
          position := c.position + c.line.length
          lastLength := (withoutTerminator c.line).length }) := by
  have htaken : c.reader.takeLine.1 = c.line := h.takeLine.1
  have hsome : ¬ c.reader.takeLine.1 = [] := by
    rw [htaken, line_eq_nil]
    exact Nat.not_le_of_lt hleft
  rw [readLine, if_neg hsome, htaken]

theorem isSome_readLine (h : c.InStep) :
    c.readLine.1.isSome ↔ c.position < c.reader.bytes.length := by
  by_cases hleft : c.position < c.reader.bytes.length
  · rw [readLine_eq_some h hleft]
    exact iff_of_true rfl hleft
  · rw [readLine_eq_none h (Nat.le_of_not_lt hleft)]
    exact iff_of_false Bool.false_ne_true hleft

@[simp] theorem reader_readLine (c : BufferedCursor) :
    c.readLine.2.reader = c.reader.takeLine.2 := by
  rw [readLine]
  split <;> rfl

/-- Who reads a line stands behind it. -/
theorem position_readLine (h : c.InStep) :
    c.readLine.2.position = c.position + c.line.length := by
  by_cases hleft : c.position < c.reader.bytes.length
  · rw [readLine_eq_some h hleft]
  · have hend := Nat.le_of_not_lt hleft
    rw [readLine_eq_none h hend, line_eq_nil.mpr hend]
    rfl

theorem inStep_readLine (h : c.InStep) : c.readLine.2.InStep := by
  obtain ⟨hline, hstands⟩ := h.takeLine
  rw [hline] at hstands
  rw [InStep, reader_readLine, position_readLine h]
  exact hstands

@[simp] theorem bytes_readLine (c : BufferedCursor) :
    c.readLine.2.reader.bytes = c.reader.bytes := by
  rw [reader_readLine, c.reader.bytes_takeLine]

theorem atEnd_eq (h : c.InStep) : c.atEnd.1 = decide (c.reader.bytes.length ≤ c.position) := by
  obtain ⟨-, hnothing⟩ := h.fill
  rw [Bool.eq_iff_iff, decide_eq_true_iff, atEnd, List.isEmpty_iff, hnothing, List.drop_eq_nil_iff]

/-! ### Operations in a row -/

/-- To read a line does the same to what is seen. -/
theorem readLine_shown (h : c.InStep) :
    Cursor.readLine c.shown = .ok (c.readLine.1, c.readLine.2.shown) := by
  have hbytes : c.reader.takeLine.2.bytes = c.reader.bytes := c.reader.bytes_takeLine
  by_cases hleft : c.position < c.reader.bytes.length
  · have hfound : (lineFound c.reader.bytes c.position 0).FoundIn c.reader.bytes := ⟨hleft, rfl⟩
    rw [readLine_eq_some h hleft, Cursor.readLine_eq rfl rfl hfound rfl]
    simp only [shown, hbytes]
    rfl
  · have hend := Nat.le_of_not_lt hleft
    have hline : c.shown.source.lineAt c.shown.position = [] := line_eq_nil.mpr hend
    have hfailure : ∀ offset, c.shown.source.failure? offset = none := fun _ => rfl
    rw [readLine_eq_none h hend, Cursor.readLine, hfailure, hline]
    simp only [shown, hbytes]
    rfl

theorem peekLine_shown (h : c.InStep) :
    Cursor.peekLine c.shown = .ok (c.peekLine.1, c.peekLine.2.shown) := by
  rw [Cursor.peekLine, readLine_shown h]
  rfl

theorem atEnd_shown (h : c.InStep) :
    Cursor.atEnd c.shown = .ok (c.atEnd.1, c.atEnd.2.shown) := by
  have hshown : c.atEnd.2.shown = c.shown := by
    rw [atEnd, shown, shown, c.reader.bytes_fill]
  rw [hshown, atEnd_eq h]
  exact Cursor.atEnd_eq rfl rfl

/-- An operation answers as it does on what is seen, and does the same to it. -/
theorem perform_shown (h : c.InStep) (op : Cursor.Operation) :
    Cursor.perform op c.shown = .ok ((perform op c).1, (perform op c).2.shown) := by
  cases op with
  | readLine => exact Cursor.bind_of_ok (readLine_shown h)
  | peekLine => exact Cursor.bind_of_ok (peekLine_shown h)
  | atEnd => exact Cursor.bind_of_ok (atEnd_shown h)
  | seek offset => rfl

theorem inStep_perform (h : c.InStep) (op : Cursor.Operation) : (perform op c).2.InStep := by
  cases op with
  | readLine => exact inStep_readLine h
  | peekLine => exact inStep_seek _ _
  | atEnd => exact h.fill.1
  | seek offset => exact inStep_seek offset c

@[simp] theorem bytes_perform (op : Cursor.Operation) (c : BufferedCursor) :
    (perform op c).2.reader.bytes = c.reader.bytes := by
  cases op with
  | readLine => exact c.bytes_readLine
  | peekLine => exact c.bytes_readLine
  | atEnd => exact c.reader.bytes_fill
  | seek offset => rfl

/-- Operations in a row answer as they do on what is seen, and do the same to it. -/
theorem performAll_shown (h : c.InStep) (ops : List Cursor.Operation) :
    Cursor.performAll ops c.shown = .ok ((performAll ops c).1, (performAll ops c).2.shown) := by
  induction ops generalizing c with
  | nil => rfl
  | cons op later ih =>
    rw [Cursor.performAll, Cursor.bind_of_ok (perform_shown h op),
      Cursor.bind_of_ok (ih (inStep_perform h op))]
    rfl

/-- Whatever is done with a cursor, its reader stays in step. -/
theorem inStep_performAll (h : c.InStep) (ops : List Cursor.Operation) :
    (performAll ops c).2.InStep := by
  induction ops generalizing c with
  | nil => exact h
  | cons op later ih => exact ih (inStep_perform h op)

theorem bytes_performAll (ops : List Cursor.Operation) (c : BufferedCursor) :
    (performAll ops c).2.reader.bytes = c.reader.bytes := by
  induction ops generalizing c with
  | nil => rfl
  | cons op later ih => exact (ih _).trans (bytes_perform op c)

/-! ### What a cursor answers -/

/-- Two cursors that stand at one offset of the same bytes read the same line, and stand behind
it. -/
theorem readLine_congr {d : BufferedCursor} (h : c.InStep) (h' : d.InStep)
    (hbytes : c.reader.bytes = d.reader.bytes) (hposition : c.position = d.position) :
    c.readLine.1 = d.readLine.1 ∧ c.readLine.2.position = d.readLine.2.position ∧
      (c.readLine.1.isSome → c.readLine.2.lastLength = d.readLine.2.lastLength) := by
  by_cases hleft : c.position < c.reader.bytes.length
  · have hline : c.line = d.line := by rw [line, line, hbytes, hposition]
    have hleft' : d.position < d.reader.bytes.length := by
      rw [← hbytes, ← hposition]
      exact hleft
    rw [readLine_eq_some h hleft, readLine_eq_some h' hleft', hline, hposition]
    exact ⟨rfl, rfl, fun _ => rfl⟩
  · have hend := Nat.le_of_not_lt hleft
    have hend' : d.reader.bytes.length ≤ d.position := by
      rw [← hbytes, ← hposition]
      exact hend
    rw [readLine_eq_none h hend, readLine_eq_none h' hend']
    exact ⟨rfl, hposition, fun hsome => absurd hsome (by simp)⟩

end BufferedCursor

/-! ### Reading to the end -/

/-- The offsets before and behind a line that was read, and the last length behind it. -/
structure ReadRange where
  start : Nat
  stop : Nat
  lastLength : Nat

namespace ReadRange

/-- The bytes of a range. -/
def content (bytes : Bytes) (r : ReadRange) : Bytes := (bytes.drop r.start).take (r.stop - r.start)

/-- The bytes are a line and its terminator, if it has one, and the last length is that of the
line. -/
def IsLine (bytes : Bytes) (r : ReadRange) : Prop :=
  ∃ line terminator, r.content bytes = line ++ terminator ∧ newline ∉ line ∧
    r.lastLength = line.length ∧
    (terminator = [13, 10] ∨ terminator = [10] ∧ ¬ [13] <:+ line ∨ terminator = [])

end ReadRange

/-- Each range begins where the one before it ends, and the first of them at `position`. -/
def Consecutive (position : Nat) : List ReadRange → Prop
  | [] => True
  | r :: later => r.start = position ∧ r.start < r.stop ∧ Consecutive r.stop later

/-- The ranges cover the bytes from `position` on, line by line. -/
structure Covers (bytes : Bytes) (position : Nat) (ranges : List ReadRange) : Prop where
  consecutive : Consecutive position ranges
  content : ranges.flatMap (·.content bytes) = bytes.drop position
  lines : ∀ r ∈ ranges, r.IsLine bytes
  /-- Only the last range may end without a newline. -/
  ended : ∀ r ∈ ranges.dropLast, [newline] <:+ r.content bytes

namespace BufferedCursor

/-- Lines are read until there is none, and these are their ranges. -/
inductive ReadsOut : BufferedCursor → List ReadRange → Prop where
  | done {c : BufferedCursor} (hnone : c.readLine.1 = none) : ReadsOut c []
  | line {c : BufferedCursor} {later : List ReadRange} (hsome : c.readLine.1.isSome)
      (hnext : ReadsOut c.readLine.2 later) :
      ReadsOut c (⟨c.position, c.readLine.2.position, c.readLine.2.lastLength⟩ :: later)

variable {c : BufferedCursor} {ranges : List ReadRange}

/-- The bytes that are left are the line at the cursor and those behind it. -/
theorem drop_position (h : c.InStep) :
    c.reader.bytes.drop c.position = c.line ++ c.reader.bytes.drop c.readLine.2.position := by
  obtain ⟨tail, htail⟩ := throughNewline_prefix (c.reader.bytes.drop c.position)
  have htail : c.line ++ tail = c.reader.bytes.drop c.position := htail
  rw [position_readLine h, ← List.drop_drop, ← htail, List.drop_left]

theorem position_lt_readLine (h : c.InStep) (hleft : c.position < c.reader.bytes.length) :
    c.position < c.readLine.2.position := by
  have hpos : 0 < c.line.length := by
    rw [List.length_pos_iff, Ne, line_eq_nil]
    exact Nat.not_le_of_lt hleft
  rw [position_readLine h]
  exact Nat.lt_add_of_pos_right hpos

/-- What was read is the line at the cursor. -/
theorem content_readLine (h : c.InStep) (lastLength : Nat) :
    ReadRange.content c.reader.bytes ⟨c.position, c.readLine.2.position, lastLength⟩ = c.line := by
  rw [ReadRange.content, drop_position h, position_readLine h, Nat.add_sub_cancel_left,
    List.take_left]

theorem isLine_readLine (h : c.InStep) (hleft : c.position < c.reader.bytes.length) :
    ReadRange.IsLine c.reader.bytes
      ⟨c.position, c.readLine.2.position, c.readLine.2.lastLength⟩ := by
  obtain ⟨terminator, hline, hterminator⟩ := exists_terminator c.line
  refine ⟨withoutTerminator c.line, terminator, (content_readLine h _).trans hline,
    newline_notMem_withoutTerminator _, ?_, ?_⟩
  · rw [readLine_eq_some h hleft]
  · rcases hterminator with ⟨hnone, -⟩ | hnewline | hboth
    · exact Or.inr (Or.inr hnone)
    · exact Or.inr (Or.inl hnewline)
    · exact Or.inl hboth

/-- A line behind which bytes are left ends in its newline. -/
theorem newline_of_behind (h : c.InStep) (hbehind : c.readLine.2.position < c.reader.bytes.length) :
    [newline] <:+ c.line := by
  rcases throughNewline_cases (c.reader.bytes.drop c.position) with ⟨front, hline, -⟩ | ⟨hall, -⟩
  · exact ⟨front, hline.symm⟩
  · have hlength := congrArg List.length hall
    rw [← line, List.length_drop] at hlength
    rw [position_readLine h] at hbehind
    omega

/-- What is read until there is nothing left covers the bytes from the cursor on. -/
theorem ReadsOut.covers (h : c.ReadsOut ranges) (hstep : c.InStep) :
    Covers c.reader.bytes c.position ranges := by
  induction h with
  | @done c hnone =>
    have hend : ¬ c.position < c.reader.bytes.length := by
      rw [← isSome_readLine hstep, hnone]
      exact Bool.false_ne_true
    exact ⟨trivial, (List.drop_eq_nil_of_le (Nat.le_of_not_lt hend)).symm,
      fun _ hr => absurd hr List.not_mem_nil, fun _ hr => absurd hr List.not_mem_nil⟩
  | @line c later hsome hnext ih =>
    have hleft := (isSome_readLine hstep).mp hsome
    have hbehind := inStep_readLine hstep
    have hlater := ih hbehind
    rw [bytes_readLine] at hlater
    refine ⟨⟨rfl, position_lt_readLine hstep hleft, hlater.consecutive⟩, ?_, fun r hr => ?_,
      fun r hr => ?_⟩
    · rw [List.flatMap_cons, content_readLine hstep, hlater.content, ← drop_position hstep]
    · rcases List.mem_cons.mp hr with rfl | hr
      · exact isLine_readLine hstep hleft
      · exact hlater.lines r hr
    · cases hnext with
      | done _ => exact absurd hr List.not_mem_nil
      | line hmore hnext =>
        rw [List.dropLast_cons_cons] at hr
        rcases List.mem_cons.mp hr with rfl | hr
        · -- Another line was read behind this one.
          have hmore := (isSome_readLine hbehind).mp hmore
          rw [bytes_readLine] at hmore
          rw [content_readLine hstep]
          exact newline_of_behind hstep hmore
        · exact hlater.ended r hr

/-- The lines of a cursor can be read out. -/
theorem exists_readsOut (h : c.InStep) : ∃ ranges, c.ReadsOut ranges := by
  induction hleft : c.reader.bytes.length - c.position using Nat.strong_induction_on
    generalizing c with
  | h left ih =>
    by_cases hmore : c.position < c.reader.bytes.length
    · have hlt := position_lt_readLine h hmore
      obtain ⟨later, hlater⟩ := ih (c.readLine.2.reader.bytes.length - c.readLine.2.position)
        (by rw [bytes_readLine]; omega) (inStep_readLine h) rfl
      exact ⟨_, .line ((isSome_readLine h).mpr hmore) hlater⟩
    · exact ⟨[], .done (by rw [readLine_eq_none h (Nat.le_of_not_lt hmore)])⟩

/-- What a cursor answers is told by the bytes and its position. -/
structure Memoryless (bytes : Bytes) (c : BufferedCursor) : Prop where
  atEnd : c.atEnd.1 = true ↔ bytes.length ≤ c.position
  /-- A line is read as by a fresh cursor that has been moved here. -/
  readLine : ∀ share start fresh, fresh = (ofBytes bytes share start).seek c.position →
    c.readLine.1 = fresh.readLine.1 ∧ c.readLine.2.position = fresh.readLine.2.position ∧
      (c.readLine.1.isSome → c.readLine.2.lastLength = fresh.readLine.2.lastLength)
  /-- Who looks at the next line sees what is read then, and stays where it is. -/
  peekLine : c.peekLine.1 = c.readLine.1 ∧ c.peekLine.2.position = c.position ∧
    c.peekLine.2.readLine.1 = c.peekLine.1
  readsOut : ∃ ranges, c.ReadsOut ranges
  covers : ∀ ranges, c.ReadsOut ranges → Covers bytes c.position ranges

/-- Whatever has been done with a cursor on some bytes, by whatever reads, it has done what a
cursor without a buffer does, and it answers by its position alone. -/
theorem memoryless_of_performAll (bytes : Bytes) (share : Nat → Nat) (start : Nat)
    (ops : List Cursor.Operation) :
    Cursor.performAll ops { source := .ofBytes bytes, position := start } =
        .ok ((performAll ops (ofBytes bytes share start)).1,
          (performAll ops (ofBytes bytes share start)).2.shown) ∧
      (performAll ops (ofBytes bytes share start)).2.Memoryless bytes := by
  have hfresh := inStep_ofBytes bytes share start
  have hstep := inStep_performAll hfresh ops
  have hbytes := bytes_performAll ops (ofBytes bytes share start)
  refine ⟨performAll_shown hfresh ops, ?_⟩
  -- Only its bytes and that it is in step are known of the cursor from here on.
  generalize (performAll ops (ofBytes bytes share start)).2 = c at hstep hbytes
  have hbytes : c.reader.bytes = bytes := hbytes
  refine ⟨?_, ?_, ⟨rfl, rfl, ?_⟩, exists_readsOut hstep, fun ranges h => hbytes ▸ h.covers hstep⟩
  · rw [atEnd_eq hstep, decide_eq_true_iff, hbytes]
  · rintro share' start' fresh rfl
    exact readLine_congr hstep (inStep_seek _ _) hbytes rfl
  · have hpeeked : c.peekLine.2.reader.bytes = c.reader.bytes := c.bytes_readLine
    exact (readLine_congr (inStep_seek _ _) hstep hpeeked rfl).1

/-- A byte order mark, two characters of which one has two bytes, and a line without an end. -/
def markedLines : Bytes :=
  Utf8.encode ['\uFEFF', 'a', '\r', '\n', 'é', 'b', '\n', 'c']

/-- Back and forth by reads of one byte: into a character, past the end, and to the start. -/
def backAndForth : List Cursor.Operation :=
  [.readLine, .peekLine, .seek 7, .readLine, .seek 20, .atEnd, .readLine, .seek 0, .peekLine]

theorem memoryless_of_performAll_markedLines :
    (performAll backAndForth (ofBytes markedLines (fun _ => 0) 0)).1 =
        [.line (some ['a']), .line (some ['é', 'b']), .moved, .line (some ['\uFFFD', 'b']), .moved,
          .atEnd true, .line none, .moved, .line (some ['a'])] ∧
      (performAll backAndForth (ofBytes markedLines (fun _ => 0) 0)).2.Memoryless markedLines := by
  obtain ⟨hsame, hmemoryless⟩ :=
    memoryless_of_performAll markedLines (fun _ => 0) 0 backAndForth
  refine ⟨?_, hmemoryless⟩
  have hanswers : (Cursor.performAll backAndForth
      { source := .ofBytes markedLines, position := 0 }).toOption.map (·.1) =
      some [.line (some ['a']), .line (some ['é', 'b']), .moved, .line (some ['\uFFFD', 'b']),
        .moved, .atEnd true, .line none, .moved, .line (some ['a'])] := by
    decide +kernel
  rw [hsame] at hanswers
  exact Option.some.inj hanswers

end BufferedCursor

end AsmCatalog
