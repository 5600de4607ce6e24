/-
The physical lines of a source.

The bytes from an offset on are cut once into lines, each of which ends behind
its newline; the last may have none.  Every line gets its place and its number
and is decoded once.  Nothing here knows of a cursor.

Main definitions:
* `splitLines` — the stored lines of some bytes;
* `PhysicalLine` — a stored line with its place, its number and its text;
* `physicalLines` — the lines of a source from an offset on, numbered from zero;
* `LaidOut` — lines that stand one behind the other in a source.

Main statements:
* `flatten_splitLines` — no byte is lost, added or moved;
* `exists_terminator` — a line is its content and its terminator;
* `linesFrom_of_lt`, `linesFrom_of_le` — the first line from an offset on is the
  one that a cursor finds there, and there is one as long as bytes are left;
* `laidOut_append` — a run of lines can be cut anywhere.
-/
import AsmCatalog.ChunkKind
import AsmCatalog.Cursor

namespace AsmCatalog

/-! ### Cutting bytes into lines -/

/-- The stored lines of some bytes, each with its terminator. -/
def splitLines : Bytes → List Bytes
  | [] => []
  | b :: rest =>
    if b = newline then [b] :: splitLines rest
    else
      match splitLines rest with
      | [] => [[b]]
      | line :: lines => (b :: line) :: lines

/-- The lines hold exactly the bytes. -/
theorem flatten_splitLines (bytes : Bytes) : (splitLines bytes).flatten = bytes := by
  induction bytes with
  | nil => rfl
  | cons b rest ih =>
    rw [splitLines]
    split
    · simp [ih]
    · cases h : splitLines rest with
      | nil => simpa [h] using ih
      | cons line lines => simpa [h] using ih

/-- The first line runs through the first newline, and the others come behind it. -/
theorem splitLines_eq_cons {bytes : Bytes} (h : bytes ≠ []) :
    splitLines bytes =
      throughNewline bytes :: splitLines (bytes.drop (throughNewline bytes).length) := by
  induction bytes with
  | nil => exact absurd rfl h
  | cons b rest ih =>
    rw [splitLines, throughNewline]
    by_cases hb : b = newline
    · simp [hb]
    · -- The byte goes to the front of the first line of the rest, if there is one.
      rw [if_neg hb, if_neg hb]
      by_cases hr : rest = []
      · simp [hr, splitLines]
      · rw [ih hr]
        simp

theorem length_splitLines_le (bytes : Bytes) : (splitLines bytes).length ≤ bytes.length := by
  induction bytes with
  | nil => exact Nat.le_refl _
  | cons b rest ih =>
    rw [splitLines]
    split
    · simpa using ih
    · cases h : splitLines rest with
      | nil => simp
      | cons line lines =>
        rw [h] at ih
        simp only [List.length_cons] at ih ⊢
        omega

/-! ### Terminators -/

/-- A line has its newline at its end, or it has none and is the last one. -/
theorem throughNewline_cases (bytes : Bytes) :
    (∃ front, throughNewline bytes = front ++ [newline] ∧ newline ∉ front) ∨
      throughNewline bytes = bytes ∧ newline ∉ bytes := by
  induction bytes with
  | nil => exact Or.inr ⟨rfl, List.not_mem_nil⟩
  | cons b rest ih =>
    rw [throughNewline]
    by_cases hb : b = newline
    · rw [if_pos hb, hb]
      exact Or.inl ⟨[], rfl, List.not_mem_nil⟩
    · rw [if_neg hb]
      have hcons : ∀ l : Bytes, newline ∉ l → newline ∉ b :: l := by
        intro l hl hmem
        rcases List.mem_cons.mp hmem with heq | hmem
        · exact hb heq.symm
        · exact hl hmem
      rcases ih with ⟨front, hline, hfront⟩ | ⟨hline, hrest⟩
      · exact Or.inl ⟨b :: front, by rw [hline]; rfl, hcons front hfront⟩
      · exact Or.inr ⟨by rw [hline], hcons rest hrest⟩

/-- What is cut off a line is a terminator, and nothing only if it has no newline at its
end. -/
theorem exists_terminator (line : Bytes) :
    ∃ t, line = withoutTerminator line ++ t ∧
      ((t = [] ∧ ∀ front, line ≠ front ++ [newline]) ∨
        (t = [10] ∧ ¬ [13] <:+ withoutTerminator line) ∨ t = [13, 10]) := by
  rw [withoutTerminator]
  split
  · rename_i rest h
    refine ⟨[13, 10], ?_, Or.inr (Or.inr rfl)⟩
    rw [← List.reverse_reverse line, h]
    simp
  · rename_i rest hreturn h
    refine ⟨[10], ?_, Or.inr (Or.inl ⟨rfl, ?_⟩)⟩
    · rw [← List.reverse_reverse line, h]
      simp
    · rintro ⟨front, hfront⟩
      refine hreturn front.reverse ?_
      rw [← List.reverse_reverse rest, ← hfront, List.reverse_append]
      rfl
  · rename_i hneither
    refine ⟨[], (List.append_nil _).symm, Or.inl ⟨rfl, fun front h => ?_⟩⟩
    exact hneither front.reverse (by rw [h, List.reverse_append]; rfl)

/-- The terminator stands at the end of the line. -/
theorem isPrefix_withoutTerminator (line : Bytes) : withoutTerminator line <+: line := by
  obtain ⟨t, ht, -⟩ := exists_terminator line
  exact ⟨t, ht.symm⟩

/-- The newline of a line is a part of its terminator. -/
theorem newline_notMem_withoutTerminator (bytes : Bytes) :
    newline ∉ withoutTerminator (throughNewline bytes) := by
  obtain ⟨t, ht, hcases⟩ := exists_terminator (throughNewline bytes)
  rcases throughNewline_cases bytes with ⟨front, hline, hfront⟩ | ⟨hline, hbytes⟩
  · rcases hcases with ⟨-, hnone⟩ | ⟨rfl, -⟩ | rfl
    · exact absurd hline (hnone front)
    · rw [(List.append_inj' (ht.symm.trans hline) rfl).1]
      exact hfront
    · -- The carriage return is the last byte before the newline.
      have hcut :
          withoutTerminator (throughNewline bytes) ++ [13] ++ [10] = front ++ [newline] := by
        rw [List.append_assoc]
        exact ht.symm.trans hline
      rw [← (List.append_inj' hcut rfl).1] at hfront
      exact fun hmem => hfront (List.mem_append_left _ hmem)
  · exact fun hmem =>
      hbytes (hline ▸ (isPrefix_withoutTerminator (throughNewline bytes)).subset hmem)

/-! ### Lines with their places -/

/-- A line as it is stored: where it begins, its number, its bytes with the terminator,
and the text that they decode to. -/
structure PhysicalLine where
  position : Nat
  number : Int
  bytes : Bytes
  text : Text
deriving DecidableEq, Inhabited

namespace PhysicalLine

/-- The kind of the chunk that the line begins. -/
def kind (l : PhysicalLine) : ChunkKind := ChunkKind.ofHeader l.text

/-- Whether the line holds nothing but white space. -/
def isBlank (l : PhysicalLine) : Bool := Text.isBlank l.text

/-- Whether the line has the keyword that ends a definition. -/
def ends (l : PhysicalLine) : Bool := endsMacro l.text

/-- The stored length of the line without its terminator. -/
def contentLength (l : PhysicalLine) : Nat := (withoutTerminator l.bytes).length

/-- The offset behind the line and its terminator. -/
def stop (l : PhysicalLine) : Nat := l.position + l.bytes.length

end PhysicalLine

/-- Stored lines with their places, the first of which has this position and number. -/
def placeLines (position : Nat) (number : Int) : List Bytes → List PhysicalLine
  | [] => []
  | line :: rest =>
    ⟨position, number, line, lineText position line⟩ ::
      placeLines (position + line.length) (number + 1) rest

@[simp] theorem length_placeLines (position : Nat) (number : Int) (lines : List Bytes) :
    (placeLines position number lines).length = lines.length := by
  induction lines generalizing position number with
  | nil => rfl
  | cons line rest ih => simp [placeLines, ih]

/-- The lines from an offset on, the first of which has this number. -/
def linesFrom (bytes : Bytes) (position : Nat) (number : Int) : List PhysicalLine :=
  placeLines position number (splitLines (bytes.drop position))

/-- The physical lines of a source from an offset on, numbered 0, 1, 2 and so on. -/
def physicalLines (bytes : Bytes) (start : Nat) : List PhysicalLine := linesFrom bytes start 0

/-- The line that a cursor finds at an offset. -/
def lineFound (bytes : Bytes) (position : Nat) (number : Int) : PhysicalLine :=
  let line := throughNewline (bytes.drop position)
  ⟨position, number, line, lineText position line⟩

/-- The line is what a cursor finds at its place. -/
def PhysicalLine.FoundIn (bytes : Bytes) (l : PhysicalLine) : Prop :=
  l.position < bytes.length ∧ l = lineFound bytes l.position l.number

theorem linesFrom_of_le {bytes : Bytes} {position : Nat} (h : bytes.length ≤ position)
    (number : Int) : linesFrom bytes position number = [] := by
  rw [linesFrom, List.drop_eq_nil_of_le h]
  rfl

/-- As long as bytes are left, the first line is the one that a cursor finds. -/
theorem linesFrom_of_lt {bytes : Bytes} {position : Nat} (h : position < bytes.length)
    (number : Int) :
    linesFrom bytes position number =
      lineFound bytes position number ::
        linesFrom bytes (lineFound bytes position number).stop (number + 1) := by
  have hne : bytes.drop position ≠ [] := by simpa using h
  rw [linesFrom, splitLines_eq_cons hne, placeLines, List.drop_drop]
  rfl

theorem lineFound_bytes_ne_nil {bytes : Bytes} {position : Nat} (h : position < bytes.length)
    (number : Int) : (lineFound bytes position number).bytes ≠ [] := by
  intro hnil
  have := throughNewline_eq_nil.mp hnil
  rw [List.drop_eq_nil_iff] at this
  omega

theorem linesFrom_eq_nil {bytes : Bytes} {position : Nat} {number : Int} :
    linesFrom bytes position number = [] ↔ bytes.length ≤ position := by
  constructor
  · intro h
    by_cases hlt : position < bytes.length
    · rw [linesFrom_of_lt hlt] at h
      exact absurd h (List.cons_ne_nil _ _)
    · omega
  · exact fun h => linesFrom_of_le h number

theorem eq_lineFound_of_linesFrom {bytes : Bytes} {position : Nat} {number : Int}
    {l : PhysicalLine} {rest : List PhysicalLine}
    (h : linesFrom bytes position number = l :: rest) :
    position < bytes.length ∧ l = lineFound bytes position number ∧
      rest = linesFrom bytes l.stop (number + 1) := by
  have hlt : position < bytes.length := by
    have hne : linesFrom bytes position number ≠ [] := by simp [h]
    rw [Ne, linesFrom_eq_nil] at hne
    omega
  rw [linesFrom_of_lt hlt] at h
  obtain ⟨rfl, rfl⟩ := List.cons.inj h
  exact ⟨hlt, rfl, rfl⟩

theorem length_linesFrom_le (bytes : Bytes) (position : Nat) (number : Int) :
    (linesFrom bytes position number).length ≤ bytes.length - position := by
  rw [linesFrom, length_placeLines, ← List.length_drop]
  exact length_splitLines_le _

/-! ### Runs of lines -/

/-- The stored length of some lines together. -/
def extent : List PhysicalLine → Nat
  | [] => 0
  | l :: rest => l.bytes.length + extent rest

@[simp] theorem extent_nil : extent [] = 0 := rfl

@[simp] theorem extent_cons (l : PhysicalLine) (rest : List PhysicalLine) :
    extent (l :: rest) = l.bytes.length + extent rest := rfl

@[simp] theorem extent_append (a b : List PhysicalLine) :
    extent (a ++ b) = extent a + extent b := by
  induction a with
  | nil => exact (Nat.zero_add _).symm
  | cons l rest ih => rw [List.cons_append, extent_cons, extent_cons, ih, Nat.add_assoc]

/-- The lines stand one behind the other in the bytes, the first of them at this offset
and with this number. -/
def LaidOut (bytes : Bytes) : Nat → Int → List PhysicalLine → Prop
  | _, _, [] => True
  | position, number, l :: rest =>
    position < bytes.length ∧ l = lineFound bytes position number ∧
      LaidOut bytes (position + l.bytes.length) (number + 1) rest

/-- The first of some lines has their place, and the others come behind it. -/
theorem LaidOut.first {bytes : Bytes} {position : Nat} {number : Int} {l : PhysicalLine}
    {rest : List PhysicalLine} (h : LaidOut bytes position number (l :: rest)) :
    l.position = position ∧ l.number = number ∧ LaidOut bytes l.stop (number + 1) rest := by
  obtain ⟨-, hl, hrest⟩ := h
  have hposition : l.position = position := by rw [hl]; rfl
  refine ⟨hposition, by rw [hl]; rfl, ?_⟩
  rw [PhysicalLine.stop, hposition]
  exact hrest

theorem LaidOut.found {bytes : Bytes} {position : Nat} {number : Int} {l : PhysicalLine}
    {rest : List PhysicalLine} (h : LaidOut bytes position number (l :: rest)) :
    l.FoundIn bytes := by
  obtain ⟨hposition, hnumber, -⟩ := h.first
  obtain ⟨hlt, hl, -⟩ := h
  subst hposition hnumber
  exact ⟨hlt, hl⟩

theorem LaidOut.found_of_mem {bytes : Bytes} {position : Nat} {number : Int}
    {lines : List PhysicalLine} (h : LaidOut bytes position number lines) {l : PhysicalLine}
    (hl : l ∈ lines) : l.FoundIn bytes := by
  induction lines generalizing position number with
  | nil => exact absurd hl List.not_mem_nil
  | cons l' rest ih =>
    obtain ⟨-, -, hrest⟩ := h.first
    rcases List.mem_cons.mp hl with rfl | hl
    · exact h.found
    · exact ih hrest hl

theorem PhysicalLine.FoundIn.position_lt_stop {bytes : Bytes} {l : PhysicalLine}
    (h : l.FoundIn bytes) : l.position < l.stop := by
  have hne : l.bytes ≠ [] := by
    rw [h.2]
    exact lineFound_bytes_ne_nil h.1 l.number
  have hpos := List.length_pos_iff.mpr hne
  rw [stop]
  omega

theorem LaidOut.within {bytes : Bytes} {position : Nat} {number : Int}
    {lines : List PhysicalLine} (h : LaidOut bytes position number lines) {l : PhysicalLine}
    (hl : l ∈ lines) :
    position ≤ l.position ∧ l.position < l.stop ∧ l.stop ≤ position + extent lines := by
  induction lines generalizing position number with
  | nil => exact absurd hl List.not_mem_nil
  | cons l' rest ih =>
    have hlt := h.found.position_lt_stop
    obtain ⟨rfl, -, hrest⟩ := h.first
    have hstop : l'.stop + extent rest = l'.position + extent (l' :: rest) := by
      rw [extent_cons, PhysicalLine.stop, Nat.add_assoc]
    rcases List.mem_cons.mp hl with rfl | hl
    · exact ⟨Nat.le_refl _, hlt, by omega⟩
    · obtain ⟨hle, hlt', hle'⟩ := ih hrest hl
      exact ⟨by omega, hlt', by omega⟩

/-- Behind some lines ends the last of them. -/
theorem LaidOut.stop_getLastD {bytes : Bytes} {number : Int} {l : PhysicalLine}
    {lines : List PhysicalLine} (h : LaidOut bytes l.stop number lines) :
    (lines.getLastD l).stop = l.stop + extent lines := by
  induction lines generalizing l number with
  | nil => rfl
  | cons l' rest ih =>
    obtain ⟨hposition, -, hrest⟩ := h.first
    rw [List.getLastD_cons, ih hrest, extent_cons, ← Nat.add_assoc, ← hposition,
      PhysicalLine.stop]

theorem laidOut_linesFrom (bytes : Bytes) (position : Nat) (number : Int) :
    LaidOut bytes position number (linesFrom bytes position number) := by
  induction h : linesFrom bytes position number generalizing position number with
  | nil => trivial
  | cons l rest ih =>
    obtain ⟨hlt, hl, hrest⟩ := eq_lineFound_of_linesFrom h
    refine ⟨hlt, hl, ih _ _ ?_⟩
    rw [hrest, PhysicalLine.stop, hl]
    rfl

/-- A run of lines can be cut anywhere. -/
theorem laidOut_append {bytes : Bytes} {a b : List PhysicalLine} {position : Nat}
    {number : Int} :
    LaidOut bytes position number (a ++ b) ↔
      LaidOut bytes position number a ∧
        LaidOut bytes (position + extent a) (number + a.length) b := by
  induction a generalizing position number with
  | nil => simp [LaidOut]
  | cons l rest ih =>
    simp only [List.cons_append, LaidOut, ih, extent_cons, List.length_cons, and_assoc,
      Nat.add_assoc, Int.add_assoc, Int.natCast_add, Int.natCast_one, Int.add_comm 1]

theorem extent_linesFrom {bytes : Bytes} {position : Nat} (h : position ≤ bytes.length)
    (number : Int) : position + extent (linesFrom bytes position number) = bytes.length := by
  -- Where the lines are placed makes no difference to their lengths.
  have hsum : ∀ (lines : List Bytes) (p : Nat) (n : Int),
      extent (placeLines p n lines) = lines.flatten.length := by
    intro lines
    induction lines with
    | nil => intro p n; rfl
    | cons line rest ih => intro p n; simp [placeLines, ih]
  rw [linesFrom, hsum, flatten_splitLines, List.length_drop]
  omega

/-- The lines from an offset on reach to the end. -/
theorem length_le_extent_linesFrom (bytes : Bytes) (position : Nat) (number : Int) :
    bytes.length ≤ position + extent (linesFrom bytes position number) := by
  rcases Nat.le_total position bytes.length with hle | hle
  · exact Nat.le_of_eq (extent_linesFrom hle number).symm
  · exact Nat.le_trans hle (Nat.le_add_right _ _)

end AsmCatalog
