/-
The outline of a source: how its lines are grouped into macro definitions.

A definition takes the lines behind its header through the first that has the end
keyword, and each header among them takes the lines of its own body first.  An
outline is a run of lines and definitions; it knows nothing of modes or includes.
It stands as one tree, in which each node also holds what comes behind it.

Main definitions:
* `Outline` — lines and definitions, one behind the other;
* `Outline.lines` — the lines of an outline in order;
* `BodyOutline` — which outline the lines behind a header make, and which are left;
* `FileOutline` — which outline the lines of a whole source make.

Main statements:
* `exists_bodyOutline`, `exists_fileOutline` — lines always make an outline;
* `BodyOutline.lines_append`, `FileOutline.lines_eq` — no line is lost or moved.
-/
import AsmCatalog.Proofs.PhysicalLine

namespace AsmCatalog

/-- A run of lines and macro definitions.  A definition has a header and a body, and
`ended` tells whether the body has a line with the end keyword. -/
inductive Outline where
  | nil
  | line (l : PhysicalLine) (next : Outline)
  | definition (header : PhysicalLine) (body : Outline) (ended : Bool) (next : Outline)

namespace Outline

/-- The lines of an outline in order. -/
def lines : Outline → List PhysicalLine
  | nil => []
  | line l next => l :: next.lines
  | definition header body _ next => header :: (body.lines ++ next.lines)

theorem add_extent_line (l : PhysicalLine) (next : Outline) :
    l.position + extent (line l next).lines = l.stop + extent next.lines := by
  rw [lines, extent_cons, ← Nat.add_assoc]
  rfl

theorem add_extent_definition (h : PhysicalLine) (body : Outline) (ended : Bool)
    (next : Outline) :
    h.position + extent (definition h body ended next).lines =
      h.stop + extent body.lines + extent next.lines := by
  rw [lines, extent_cons, extent_append, ← Nat.add_assoc, ← Nat.add_assoc]
  rfl

/-- The headers begin definitions, and no other line does. -/
def Sound : Outline → Prop
  | nil => True
  | line l next => l.kind ≠ .macroDef ∧ next.Sound
  | definition header body _ next => header.kind = .macroDef ∧ body.Sound ∧ next.Sound

end Outline

/-- The lines behind the header of a definition make the body `o`.  The lines that are
left begin behind the line with the end keyword, if `ended` tells that there is one. -/
inductive BodyOutline : List PhysicalLine → Outline → Bool → List PhysicalLine → Prop where
  | nil : BodyOutline [] .nil false []
  | lastLine {l : PhysicalLine} {rest : List PhysicalLine}
      (hkind : l.kind ≠ .macroDef) (hends : l.ends = true) :
      BodyOutline (l :: rest) (.line l .nil) true rest
  | line {l : PhysicalLine} {rest left : List PhysicalLine} {next : Outline} {ended : Bool}
      (hkind : l.kind ≠ .macroDef) (hends : l.ends = false)
      (hnext : BodyOutline rest next ended left) :
      BodyOutline (l :: rest) (.line l next) ended left
  | lastDefinition {h : PhysicalLine} {rest left : List PhysicalLine} {body : Outline}
      {ended : Bool} (hkind : h.kind = .macroDef) (hends : h.ends = true)
      (hbody : BodyOutline rest body ended left) :
      BodyOutline (h :: rest) (.definition h body ended .nil) true left
  | definition {h : PhysicalLine} {rest between left : List PhysicalLine} {body next : Outline}
      {ended ended' : Bool} (hkind : h.kind = .macroDef) (hends : h.ends = false)
      (hbody : BodyOutline rest body ended between)
      (hnext : BodyOutline between next ended' left) :
      BodyOutline (h :: rest) (.definition h body ended next) ended' left

/-- The lines of a whole source make the outline `o`. -/
inductive FileOutline : List PhysicalLine → Outline → Prop where
  | nil : FileOutline [] .nil
  | line {l : PhysicalLine} {rest : List PhysicalLine} {next : Outline}
      (hkind : l.kind ≠ .macroDef) (hnext : FileOutline rest next) :
      FileOutline (l :: rest) (.line l next)
  | definition {h : PhysicalLine} {rest left : List PhysicalLine} {body next : Outline}
      {ended : Bool} (hkind : h.kind = .macroDef) (hbody : BodyOutline rest body ended left)
      (hnext : FileOutline left next) :
      FileOutline (h :: rest) (.definition h body ended next)

namespace BodyOutline

variable {lines left : List PhysicalLine} {o : Outline} {ended : Bool}

/-- A body and what is left of the lines are all the lines. -/
theorem lines_append (h : BodyOutline lines o ended left) : o.lines ++ left = lines := by
  induction h with
  | nil => rfl
  | lastLine => rfl
  | line _ _ _ ih => simp [Outline.lines, ih]
  | lastDefinition _ _ _ ih => simp [Outline.lines, ih]
  | definition _ _ _ _ ihb ihn => simp [Outline.lines, ihn, ihb]

theorem length_left_le (h : BodyOutline lines o ended left) : left.length ≤ lines.length := by
  rw [← h.lines_append, List.length_append]
  exact Nat.le_add_left ..

theorem sound (h : BodyOutline lines o ended left) : o.Sound := by
  induction h with
  | nil => trivial
  | lastLine hkind => exact ⟨hkind, trivial⟩
  | line hkind _ _ ih => exact ⟨hkind, ih⟩
  | lastDefinition hkind _ _ ih => exact ⟨hkind, ih, trivial⟩
  | definition hkind _ _ _ ihb ihn => exact ⟨hkind, ihb, ihn⟩

end BodyOutline

namespace FileOutline

variable {lines : List PhysicalLine} {o : Outline}

theorem lines_eq (h : FileOutline lines o) : o.lines = lines := by
  induction h with
  | nil => rfl
  | line _ _ ih => rw [Outline.lines, ih]
  | definition _ hbody _ ih => rw [Outline.lines, ih, hbody.lines_append]

theorem sound (h : FileOutline lines o) : o.Sound := by
  induction h with
  | nil => trivial
  | line hkind _ ih => exact ⟨hkind, ih⟩
  | definition hkind hbody _ ih => exact ⟨hkind, hbody.sound, ih⟩

end FileOutline

/-- Any lines behind a header make a body. -/
theorem exists_bodyOutline (lines : List PhysicalLine) :
    ∃ o ended left, BodyOutline lines o ended left := by
  match lines with
  | [] => exact ⟨_, _, _, .nil⟩
  | l :: rest =>
    by_cases hkind : l.kind = .macroDef
    · obtain ⟨body, ended, between, hbody⟩ := exists_bodyOutline rest
      cases hends : l.ends with
      | true => exact ⟨_, _, _, .lastDefinition hkind hends hbody⟩
      | false =>
        -- What the nested body leaves is no longer than what it was given.
        have := hbody.length_left_le
        obtain ⟨next, ended', left, hnext⟩ := exists_bodyOutline between
        exact ⟨_, _, _, .definition hkind hends hbody hnext⟩
    · cases hends : l.ends with
      | true => exact ⟨_, _, _, .lastLine hkind hends⟩
      | false =>
        obtain ⟨next, ended, left, hnext⟩ := exists_bodyOutline rest
        exact ⟨_, _, _, .line hkind hends hnext⟩
termination_by lines.length
decreasing_by all_goals simp only [List.length_cons]; omega

/-- The lines of any source make an outline. -/
theorem exists_fileOutline (lines : List PhysicalLine) : ∃ o, FileOutline lines o := by
  match lines with
  | [] => exact ⟨_, .nil⟩
  | l :: rest =>
    by_cases hkind : l.kind = .macroDef
    · obtain ⟨body, ended, left, hbody⟩ := exists_bodyOutline rest
      have := hbody.length_left_le
      obtain ⟨next, hnext⟩ := exists_fileOutline left
      exact ⟨_, .definition hkind hbody hnext⟩
    · obtain ⟨next, hnext⟩ := exists_fileOutline rest
      exact ⟨_, .line hkind hnext⟩
termination_by lines.length
decreasing_by all_goals simp only [List.length_cons]; omega

end AsmCatalog
