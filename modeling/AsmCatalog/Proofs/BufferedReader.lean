/-
A reader that fetches bytes ahead.

A line is taken out of what has been fetched.  If it does not end there, what is left of it is
taken whole and more is fetched, as often as it needs, and every read of the source may give
fewer bytes than were asked for.  What the reader hands out does not depend on any of this: it
stands at an offset as soon as the bytes that it has fetched, and those behind them in the
source, are the stored bytes from this offset on.

Main definitions:
* `BufferedReader` — a source that stands at an offset, and the bytes that were fetched;
* `BufferedReader.fill`, `BufferedReader.takeLine`, `BufferedReader.seek` — its operations;
* `BufferedReader.StandsAt` — the offset from which on nothing has been handed out.

Main statements:
* `BufferedReader.StandsAt.fill` — fetching does not move the reader;
* `BufferedReader.StandsAt.takeLine` — a line is taken as it is stored at the offset.
-/
import AsmCatalog.Source

namespace AsmCatalog

/-- Stored bytes that are read through a buffer.  The source stands at `offset`, what has been
fetched from it and not been handed out is `fetched`, and the read that comes after `reads`
others gives at most `share reads + 1` bytes. -/
structure BufferedReader where
  bytes : Bytes
  share : Nat → Nat
  offset : Nat
  fetched : Bytes := []
  reads : Nat := 0

namespace BufferedReader

variable {r : BufferedReader} {position : Nat}

/-! ### Operations -/

/-- If nothing is left of what has been fetched, the source is read. -/
def fill (r : BufferedReader) : BufferedReader :=
  if r.fetched = [] then
    let found := (r.bytes.drop r.offset).take (r.share r.reads + 1)
    { r with offset := r.offset + found.length, fetched := found, reads := r.reads + 1 }
  else r

/-- So many of the bytes that have been fetched are handed out. -/
def consume (count : Nat) (r : BufferedReader) : BufferedReader :=
  { r with fetched := r.fetched.drop count }

/-- The source is moved, and what has been fetched is dropped. -/
def seek (offset : Nat) (r : BufferedReader) : BufferedReader := { r with offset, fetched := [] }

/-- How many bytes are left. -/
def left (r : BufferedReader) : Nat := r.fetched.length + (r.bytes.length - r.offset)

theorem left_fill_le (r : BufferedReader) : r.fill.left ≤ r.left := by
  rw [fill]
  split
  · rename_i hnone
    simp only [left, hnone, List.length_nil, List.length_take, List.length_drop]
    omega
  · exact Nat.le_refl _

theorem left_consume_lt (h : r.fetched ≠ []) : (r.consume r.fetched.length).left < r.left := by
  have hpos := List.length_pos_iff.mpr h
  simp only [left, consume, List.drop_length, List.length_nil]
  omega

/-- The bytes through the next newline are handed out, or all bytes if there is none.  What has
been fetched may end before. -/
def takeLine (r : BufferedReader) : Bytes × BufferedReader :=
  if r.fill.fetched = [] then ([], r.fill)
  else if newline ∈ r.fill.fetched then
    let line := throughNewline r.fill.fetched
    (line, r.fill.consume line.length)
  else
    let later := (r.fill.consume r.fill.fetched.length).takeLine
    (r.fill.fetched ++ later.1, later.2)
termination_by r.left
decreasing_by exact Nat.lt_of_lt_of_le (left_consume_lt ‹_›) r.left_fill_le

/-! ### Where the reader stands -/

/-- The bytes that have not been handed out are those from `position` on. -/
def StandsAt (r : BufferedReader) (position : Nat) : Prop :=
  r.fetched ++ r.bytes.drop r.offset = r.bytes.drop position

theorem standsAt_seek (r : BufferedReader) (offset : Nat) : (r.seek offset).StandsAt offset := rfl

@[simp] theorem bytes_consume (count : Nat) (r : BufferedReader) :
    (r.consume count).bytes = r.bytes := rfl

@[simp] theorem bytes_fill (r : BufferedReader) : r.fill.bytes = r.bytes := by
  rw [fill]
  split <;> rfl

@[simp] theorem bytes_takeLine (r : BufferedReader) : r.takeLine.2.bytes = r.bytes := by
  induction r using takeLine.induct with
  | case1 r hend => rw [takeLine, if_pos hend, bytes_fill]
  | case2 r hleft hnewline =>
    rw [takeLine, if_neg hleft, if_pos hnewline, bytes_consume, bytes_fill]
  | case3 r hleft hnewline ih =>
    rw [takeLine, if_neg hleft, if_neg hnewline]
    exact ih.trans ((bytes_consume _ _).trans r.bytes_fill)

/-- Fetching does not move the reader, and gives nothing only at the end. -/
theorem StandsAt.fill (h : r.StandsAt position) :
    r.fill.StandsAt position ∧ (r.fill.fetched = [] ↔ r.bytes.drop position = []) := by
  rw [BufferedReader.fill]
  split
  · rename_i hnone
    rw [StandsAt, hnone, List.nil_append] at h
    have hsplit : (r.bytes.drop r.offset).take (r.share r.reads + 1) ++
        r.bytes.drop (r.offset + ((r.bytes.drop r.offset).take (r.share r.reads + 1)).length) =
          r.bytes.drop r.offset := by
      rw [← List.drop_drop, List.length_take]
      rcases Nat.le_total (r.share r.reads + 1) (r.bytes.drop r.offset).length with hle | hle
      · rw [Nat.min_eq_left hle, List.take_append_drop]
      · rw [Nat.min_eq_right hle, List.take_of_length_le hle, List.drop_length, List.append_nil]
    refine ⟨hsplit.trans h, ?_⟩
    rw [← h, List.take_eq_nil_iff]
    constructor
    · rintro (hzero | hrest)
      · exact absurd hzero (Nat.succ_ne_zero _)
      · exact hrest
    · exact Or.inr
  · rename_i hsome
    refine ⟨h, fun hnone => absurd hnone hsome, fun hrest => ?_⟩
    rw [StandsAt, hrest] at h
    exact (List.append_eq_nil_iff.mp h).1

/-- What is left begins with what has been fetched. -/
theorem StandsAt.drop_eq (h : r.StandsAt position) :
    r.bytes.drop position = r.fill.fetched ++ r.bytes.drop r.fill.offset := by
  rw [← bytes_fill r]
  exact h.fill.1.symm

/-- Whoever hands out bytes stands behind them. -/
theorem StandsAt.consume (h : r.StandsAt position) {count : Nat}
    (hcount : count ≤ r.fetched.length) : (r.consume count).StandsAt (position + count) := by
  have hdrop := congrArg (List.drop count) h
  rw [List.drop_append_of_le_length hcount, List.drop_drop] at hdrop
  exact hdrop

/-- A line is taken as it is stored where the reader stands, and the reader stands behind it. -/
theorem StandsAt.takeLine (h : r.StandsAt position) :
    r.takeLine.1 = throughNewline (r.bytes.drop position) ∧
      r.takeLine.2.StandsAt (position + r.takeLine.1.length) := by
  induction r using takeLine.induct generalizing position with
  | case1 r hend =>
    obtain ⟨hstands, hnothing⟩ := h.fill
    rw [BufferedReader.takeLine, if_pos hend, hnothing.mp hend]
    exact ⟨rfl, hstands⟩
  | case2 r hleft hnewline =>
    obtain ⟨hstands, -⟩ := h.fill
    rw [BufferedReader.takeLine, if_neg hleft, if_pos hnewline]
    have hrest := h.drop_eq
    have hwithin : throughNewline r.fill.fetched <+: r.fill.fetched := throughNewline_prefix _
    refine ⟨?_, hstands.consume hwithin.length_le⟩
    rw [hrest, throughNewline_append, if_pos hnewline]
  | case3 r hleft hnewline ih =>
    obtain ⟨hstands, -⟩ := h.fill
    have hbehind := hstands.consume (Nat.le_refl _)
    obtain ⟨hline, hlater⟩ := ih hbehind
    rw [BufferedReader.takeLine, if_neg hleft, if_neg hnewline]
    have hrest := h.drop_eq
    -- What comes behind the part that has been taken is what the source still holds.
    have htail : r.bytes.drop (position + r.fill.fetched.length) = r.bytes.drop r.fill.offset := by
      rw [← List.drop_drop, hrest, List.drop_left]
    rw [bytes_consume, bytes_fill, htail] at hline
    refine ⟨?_, ?_⟩
    · rw [hrest, throughNewline_append, if_neg hnewline, ← hline]
    · rw [List.length_append, ← Nat.add_assoc]
      exact hlater

end BufferedReader

end AsmCatalog
