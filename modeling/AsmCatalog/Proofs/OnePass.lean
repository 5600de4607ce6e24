/-
A reading of a source in one pass, without a cursor.

The bytes are cut into lines and the lines are decoded once.  They are then taken
from the front of a list, one for each dispatch, and are never put back: a line is
classified, and a macro header goes on to take the lines of its body.  Each reading
says what it leaves of the list, with the proof that the list did not grow.

Main definitions:
* `OnePass.dispatch` — one line, with the lines of its body if it is a macro header;
* `OnePass.gather` — the lines of a body;
* `OnePass.file`, `OnePass.parse` — the lines of a file.

Main statements:
* `OnePass.gather_eq`, `OnePass.file_eq` — what is read is what the outline of the
  lines makes;
* `OnePass.ofSource_eq_parse` — the import, which reads lines again and again, gives
  the same.
-/
import AsmCatalog.Proofs.ReliableImport

namespace AsmCatalog

namespace OnePass

/-- What comes of a dispatch: an entry, the constants in it, the stored length of the
lines that were taken, and the lines that are left. -/
structure Dispatched where
  entry : Option Chunk
  constants : List Constant
  length : Nat
  left : List PhysicalLine

/-- What comes of the lines of a body.  `ended` tells whether one of them has the end
keyword. -/
structure Gathered where
  entries : List (Option Chunk)
  constants : List Constant
  length : Nat
  ended : Bool
  left : List PhysicalLine

mutual

/-- One line is classified and read, and the lines of its body if it is a macro header.
A malformed header takes no body. -/
def dispatchWithin (x : LineContext) (l : PhysicalLine) (rest : List PhysicalLine) :
    { d : Dispatched // d.left.length ≤ rest.length } :=
  if l.kind = .macroDef then
    match l.header? x.mode with
    | none => ⟨⟨some (l.malformed x), [], l.bytes.length, rest⟩, Nat.le_refl _⟩
    | some header =>
      let body := gatherWithin x rest
      ⟨⟨some (l.definition x header body.1.entries body.1.length), body.1.constants,
        l.bytes.length + body.1.length, body.1.left⟩, body.2⟩
  else
    ⟨⟨l.entry x, (l.constant? x.path x.mode).toList, l.bytes.length, rest⟩, Nat.le_refl _⟩
termination_by (rest.length, 1)

/-- The lines of a body are dispatched through the first that has the end keyword. -/
def gatherWithin (x : LineContext) (lines : List PhysicalLine) :
    { g : Gathered // g.left.length ≤ lines.length } :=
  match lines with
  | [] => ⟨⟨[], [], 0, false, []⟩, Nat.le_refl _⟩
  | l :: rest =>
    let first := dispatchWithin x l rest
    if l.ends then
      ⟨⟨[first.1.entry], first.1.constants, first.1.length, true, first.1.left⟩,
        Nat.le_succ_of_le first.2⟩
    else
      let later := gatherWithin x first.1.left
      ⟨⟨first.1.entry :: later.1.entries, first.1.constants ++ later.1.constants,
        first.1.length + later.1.length, later.1.ended, later.1.left⟩,
        Nat.le_succ_of_le (Nat.le_trans later.2 first.2)⟩
termination_by (lines.length, 0)
decreasing_by
  · exact Prod.Lex.left _ _ (Nat.lt_succ_self _)
  · exact Prod.Lex.left _ _ (Nat.lt_succ_of_le first.2)

end

/-- The next line, with the lines of its body if it is a macro header. -/
def dispatch (x : LineContext) (l : PhysicalLine) (rest : List PhysicalLine) : Dispatched :=
  (dispatchWithin x l rest).1

/-- The lines of a body. -/
def gather (x : LineContext) (lines : List PhysicalLine) : Gathered := (gatherWithin x lines).1

theorem length_left_dispatch_le (x : LineContext) (l : PhysicalLine)
    (rest : List PhysicalLine) : (dispatch x l rest).left.length ≤ rest.length :=
  (dispatchWithin x l rest).2

theorem dispatch_line {l : PhysicalLine} (h : l.kind ≠ .macroDef) (x : LineContext)
    (rest : List PhysicalLine) :
    dispatch x l rest =
      ⟨l.entry x, (l.constant? x.path x.mode).toList, l.bytes.length, rest⟩ := by
  rw [dispatch, dispatchWithin, if_neg h]

theorem dispatch_header {x : LineContext} {l : PhysicalLine} {header : MacroHeader}
    (h : l.kind = .macroDef) (hh : l.header? x.mode = some header)
    (rest : List PhysicalLine) :
    dispatch x l rest =
      ⟨some (l.definition x header (gather x rest).entries (gather x rest).length),
        (gather x rest).constants, l.bytes.length + (gather x rest).length,
        (gather x rest).left⟩ := by
  rw [dispatch, dispatchWithin, if_pos h]
  split
  · rename_i hnone
    rw [hh] at hnone
    exact absurd hnone (by simp)
  · rename_i found hfound
    rw [hh] at hfound
    obtain rfl := Option.some.inj hfound
    rfl

theorem gather_nil (x : LineContext) : gather x [] = ⟨[], [], 0, false, []⟩ := by
  rw [gather, gatherWithin]

theorem gather_cons (x : LineContext) (l : PhysicalLine) (rest : List PhysicalLine) :
    gather x (l :: rest) =
      let first := dispatch x l rest
      if l.ends then
        ⟨[first.entry], first.constants, first.length, true, first.left⟩
      else
        let later := gather x first.left
        ⟨first.entry :: later.entries, first.constants ++ later.constants,
          first.length + later.length, later.ended, later.left⟩ := by
  rw [gather, gatherWithin]
  cases l.ends <;> rfl

/-- What comes of a file: its top-level chunks and its constants. -/
structure Parsed where
  chunks : List Chunk
  constants : List Constant

/-- The lines of a file behind some top-level chunks.  Each dispatch sees the macros that
were found before it. -/
def file (f : FileContext) (found : List Chunk) (lines : List PhysicalLine) : Parsed :=
  match lines with
  | [] => ⟨found, []⟩
  | l :: rest =>
    let next := dispatch (f.behind found) l rest
    let later := file f (found ++ next.entry.toList) next.left
    ⟨later.chunks, next.constants ++ later.constants⟩
termination_by lines.length
decreasing_by exact Nat.lt_succ_of_le (length_left_dispatch_le ..)

/-- A source from an offset on, in one pass. -/
def parse (f : FileContext) (bytes : Bytes) (start : Nat) : Parsed :=
  file f [] (physicalLines bytes start)

/-! ### What is read -/

/-- The lines of a body are read as what their outline makes. -/
theorem gather_eq {lines left : List PhysicalLine} {o : Outline} {ended : Bool}
    (h : BodyOutline lines o ended left) (x : LineContext) :
    gather x lines =
      ⟨o.entries x, constantsOf x.path x.mode o.lines, extent o.lines, ended, left⟩ := by
  induction h with
  | nil => exact gather_nil x
  | lastLine hkind hends =>
    rw [gather_cons, dispatch_line hkind, Outline.lines, constantsOf_cons]
    simp [hends, Outline.lines, constantsOf]
  | line hkind hends _ ih =>
    rw [gather_cons, dispatch_line hkind, Outline.lines, constantsOf_cons]
    simp [hends, ih]
  | lastDefinition hkind hends _ ih =>
    obtain ⟨header, hh⟩ := PhysicalLine.exists_header? hkind x.mode
    rw [gather_cons, dispatch_header hkind hh, Outline.lines, constantsOf_header hkind]
    simp [hends, ih, hh, Outline.definition?, Outline.lines]
  | definition hkind hends _ _ ihb ihn =>
    obtain ⟨header, hh⟩ := PhysicalLine.exists_header? hkind x.mode
    rw [gather_cons, dispatch_header hkind hh, Outline.lines, constantsOf_header hkind]
    simp [hends, ihb, ihn, hh, Outline.definition?, Nat.add_assoc]

/-- A file is read as what its outline makes. -/
theorem file_eq {lines : List PhysicalLine} {o : Outline} (h : FileOutline lines o)
    (f : FileContext) (found : List Chunk) :
    file f found lines = ⟨o.chunksBehind f found, constantsOf f.path f.mode lines⟩ := by
  induction h generalizing found with
  | nil =>
    rw [file]
    rfl
  | line hkind _ ih =>
    rw [file, dispatch_line hkind, constantsOf_cons]
    simp only [ih]
    rfl
  | definition hkind hbody _ ih =>
    obtain ⟨header, hh⟩ := PhysicalLine.exists_header? hkind f.mode
    have hh' : PhysicalLine.header? (f.behind found).mode _ = some header := hh
    rw [file, dispatch_header hkind hh', gather_eq hbody, constantsOf_header hkind,
      ← hbody.lines_append, constantsOf_append]
    simp only [ih, Outline.chunksBehind, Outline.definition?, hh', Option.map_some]
    rfl

/-- Over bytes that nothing interrupts the import succeeds, and gives the chunks and the
constants that are read in one pass. -/
theorem ofSource_eq_parse (path : SourcePath) (mode : Mode) (includes : List Catalog)
    (bytes : Bytes) (start : Nat) :
    ∃ file : Catalog,
      (Catalog.ofSource { mode, includes } path (.ofBytes bytes) start false).result =
        .ok file ∧
      file.path = path ∧
      file.chunks.toList = (parse ⟨path, mode, includes⟩ bytes start).chunks ∧
      file.constants = (parse ⟨path, mode, includes⟩ bytes start).constants := by
  obtain ⟨o, ho⟩ := exists_fileOutline (physicalLines bytes start)
  obtain ⟨file, hfile, hpath, hchunks, hconstants⟩ :=
    Catalog.ofSource_ofBytes ⟨path, mode, includes⟩ bytes start ho
  refine ⟨file, congrArg (·.result) hfile, hpath, ?_, ?_⟩
  · rw [hchunks, parse, OnePass.file_eq ho]
  · rw [hconstants, parse, OnePass.file_eq ho]

end OnePass

end AsmCatalog
