/-
Imports of a source that is rewritten while it is read.

The bytes are replaced at the first move to some offset, so the line that was classified
and the line that is catalogued may be different ones, and the second may not exist.
Such an import still ends, never goes back, and files its chunks in order.  A header that
turns out to be none is the only way to an invalid macro.

Main definitions:
* `Source.rewritten` — bytes that are replaced at the first move to an offset;
* `Source.Sound` — a source that nothing else goes wrong with;
* `Import.Measured` — how far a dispatch has moved the cursor;
* `Catalog.Orderly` — where the chunks of a file stand, and what its invalid macros are.

Main statements:
* `Import.measured_of_chunk` — every dispatch over any source is measured so;
* `Catalog.orderly_of_rewritten` — the import of a rewritten source ends in an orderly file.
-/
import AsmCatalog.Proofs.Execution
import AsmCatalog.Proofs.Failure

namespace AsmCatalog

/-- The bytes `original`, which are replaced by `replaced` at the first move to `offset`. -/
def Source.rewritten (original : Bytes) (offset : Nat) (replaced : Bytes) : Source :=
  { bytes := original, replacement := some ⟨offset, replaced⟩ }

/-- Nothing goes wrong with a source but that its bytes may be replaced. -/
structure Source.Sound (s : Source) : Prop where
  movable : s.immovable = none
  fault : s.fault = none
  unwatched : s.stopFrom = none

theorem Source.movable_sound : Source.Movable Source.Sound where
  movable h := h.movable
  moved offset h := by
    rw [moved]
    split
    · split
      · exact ⟨h.movable, h.fault, h.unwatched⟩
      · exact h
    · exact h

namespace Import

/-! ### How far a dispatch moves the cursor -/

/-- Where the cursor has gone in a dispatch from `s` to `s'` that gave the entry `e`. -/
structure Measured (s : State) (e : Option Chunk) (s' : State) : Prop where
  /-- It has not gone back. -/
  forward : s.cursor.position ≤ s'.cursor.position
  /-- It has gone on over a byte, or nothing is left and the bytes are not replaced any
  more, unless it stood at the end before. -/
  progress : s.stage.AtEnd ∨ s.cursor.position < s'.cursor.position ∨ s'.stage.Over
  /-- What is not a comment covers exactly the bytes between. -/
  extent : ∀ c, e = some c → c.kind ≠ .comment →
    c.position = s.cursor.position ∧ c.position + c.length = s'.cursor.position

/-- A line that a parser has gone back to ends behind the offset where the parser began, so
that the difference of the two positions is the length of the line. -/
theorem position_lt_of_lineAt {start : Nat} {s s' : State} {text : Text}
    (h : lineAt start s = .ok (some text) s') : start < s'.cursor.position := by
  rw [lineAt] at h
  obtain ⟨u, s₁, hseek, hread⟩ := bind_eq_ok.mp h
  have hs₁ : s₁.stage.position = start := congrArg Stage.position (seek_cases hseek)
  rcases readLine_cases hread with ⟨-, hnone, -⟩ | ⟨hleft, -, hs', -⟩
  · exact absurd hnone (by simp)
  · have hstop : s'.cursor.position = s₁.stage.here.stop := congrArg Stage.position hs'
    rw [hstop, ← hs₁]
    exact Stage.position_lt_past hleft

theorem Plain.stop_eq {settings : Settings} {g g' : Stage} {c : Chunk}
    (h : Plain settings g (some c) g') (hkind : c.kind ≠ .comment) :
    c.position = g.position ∧ c.stop = g'.position := by
  cases h with
  | comment _ _ _ hc => exact absurd (by rw [hc]; rfl) hkind
  | statement _ _ _ hc _ =>
    have hsame : ((g.reopened.past.declaring c).reported (some c)).position =
        g.reopened.past.position := by
      rw [Stage.declaring]
      cases Constant.ofChunk? c <;> rfl
    rw [hsame, hc]
    exact ⟨rfl, rfl⟩
  | malformed _ _ _ _ hc =>
    rw [hc]
    exact ⟨rfl, rfl⟩

/-- A dispatch goes on as long as a nested body does not go back. -/
theorem measured_of_body {settings : Settings} {body : Step (List (Option Chunk) × Bool)}
    (hbody : ∀ {s r s'}, body s = .ok r s' → s.stage.Leads s'.stage) {s s' : State}
    {e : Option Chunk} (h : chunk settings body s = .ok e s') :
    s.stage.Leads s'.stage ∧ Measured s e s' := by
  rcases chunk_cases h with hplain |
    ⟨header, inner, ended, s₁, s₂, hopens, hs₁, hinner, rfl, hs'⟩
  · refine ⟨hplain.leads, hplain.leads.position, ?_, ?_⟩
    · by_cases hend : s.stage.AtEnd
      · exact Or.inl hend
      · exact Or.inr (hplain.advances (Or.inl hend))
    · rintro c rfl hkind
      exact hplain.stop_eq hkind
  · have hpast : s.stage.reopened.past.Leads s₂.stage := hs₁ ▸ hbody hinner
    have hspans := hopens.spans_definition hpast inner
    have hstop : s'.cursor.position = s₂.cursor.position := congrArg Stage.position hs'
    refine ⟨?_, ?_, Or.inr (Or.inl ?_), ?_⟩
    · rw [hs']
      exact s.stage.leads_reopened.trans
        (s.stage.reopened.leads_past.trans (hpast.trans (Stage.leads_closed ..)))
    · rw [hstop]
      exact Nat.le_of_lt hspans.position.2
    · rw [hstop]
      exact hspans.position.2
    · rintro c hc -
      obtain rfl := Option.some.inj hc
      refine ⟨rfl, ?_⟩
      rw [hstop]
      exact Nat.add_sub_of_le (Nat.le_of_lt hspans.position.2)

/-- A body does not go back, however it is bounded. -/
theorem leads_of_body {settings : Settings} {fuel : Nat} {taken : List (Option Chunk)}
    {s s' : State} {r : List (Option Chunk) × Bool}
    (h : body settings fuel taken s = .ok r s') : s.stage.Leads s'.stage := by
  induction fuel generalizing taken s s' r with
  | zero =>
    obtain ⟨-, rfl⟩ := pure_eq_ok.mp h
    exact .refl _
  | succ fuel ih =>
    rcases body_eq_ok h with ⟨-, -, hs'⟩ | ⟨-, e, s₁, s₂, hs₁, hchunk, hrest⟩
    · rw [hs']
      exact .refl _
    · have hfirst := (measured_of_body ih hchunk).1
      rw [hs₁] at hfirst
      refine (s.stage.leads_reopened.trans hfirst).trans ?_
      split at hrest
      · obtain ⟨-, rfl⟩ := pure_eq_ok.mp hrest
        exact .refl _
      · exact ih hrest

/-- Every dispatch of an import is measured, whatever its source does. -/
theorem measured_of_chunk {settings : Settings} {fuel : Nat} {s s' : State} {e : Option Chunk}
    (h : chunk settings (body settings fuel []) s = .ok e s') : Measured s e s' :=
  (measured_of_body leads_of_body h).2

/-! ### Chunks at any depth -/

/-- The chunks in the body of a macro stand in its range, behind its own line. -/
theorem carries_within (settings : Settings) :
    Carries settings (fun _ => True) fun c => ∀ d, some d ∈ c.body →
      c.position < d.position ∧ d.stop ≤ c.stop ∧ c.line < d.line where
  step := fun _ _ _ => trivial
  plain := fun _ hplain d hd => absurd (hplain.body_nil ▸ hd) List.not_mem_nil
  definition := by
    intro g g' header inner ended _ hopens hbody d hd
    have hinside := hbody.spans (List.mem_flatMap.mpr ⟨d, mem_present.mpr hd, d.mem_all_self⟩)
    have hspans := hopens.spans_definition hbody.leads inner
    have hstop : (g.definition header inner g').stop = g'.position :=
      Nat.add_sub_of_le (Nat.le_of_lt hspans.position.2)
    refine ⟨?_, ?_, hinside.line.1⟩
    · have hlt : g.position < g.reopened.past.position := Stage.position_lt_past hopens.again
      exact Nat.lt_of_lt_of_le hlt hinside.position.1
    · rw [hstop]
      exact hinside.stop

/-- A header that is none when it is read again is a line of the bytes that came instead. -/
theorem carries_invalid (settings : Settings) (offset : Nat) (replaced : Bytes) :
    Carries settings
      (fun g => g.source.replacement = some ⟨offset, replaced⟩ ∨ g.source.replacement = none)
      fun c => ∀ m, c.content = .macroDef m → m.valid = false →
        m.parameters = [] ∧ m.body = [] ∧ ∃ text cursor,
          Cursor.readLine { source := .ofBytes replaced, position := c.position } =
            .ok (some text, cursor) ∧ c.position + c.length = cursor.position where
  step := by
    rintro g g' (hg | hg) hleads -
    · exact hleads.replacement.imp_left (·.trans hg)
    · exact Or.inr (hleads.replacement.elim (·.trans hg) id)
  plain := by
    intro g g' c hg hplain m hm hvalid
    cases hplain with
    | comment _ _ _ hc =>
      rw [hc] at hm
      exact absurd hm (by simp [PhysicalLine.commentChunk])
    | statement _ _ _ hc _ =>
      rw [hc] at hm
      exact absurd hm (by simp [PhysicalLine.statementChunk])
    | malformed _ hagain hkind hheader hc =>
      -- The line was a header when it was classified, so it is not the same line any more.
      have hmoved : g.reopened.source.bytes = replaced := by
        rcases Stage.moved_cases g.source g.position with hsame | ⟨r, hr, -, hmoved⟩
        · have hreopened : g.reopened = g := by rw [Stage.reopened, hsame]
          rw [hreopened] at hheader
          obtain ⟨header, hsome⟩ := PhysicalLine.exists_header? hkind settings.mode
          exact absurd (hheader.symm.trans hsome) (by simp)
        · rcases hg with hg | hg
          · obtain rfl := Option.some.inj (hr.symm.trans hg)
            exact congrArg Source.bytes hmoved
          · exact absurd (hr.symm.trans hg) (by simp)
      have hfound : g.reopened.here.FoundIn replaced := by
        rw [Stage.here, hmoved]
        refine ⟨?_, rfl⟩
        rw [← hmoved]
        exact Nat.lt_of_not_le hagain
      rw [hc] at hm
      obtain rfl := Content.macroDef.inj hm
      have hposition : c.position = g.reopened.here.position := by rw [hc]; rfl
      have hread := Cursor.readLine_eq
        (c := { source := .ofBytes replaced, position := c.position }) rfl rfl hfound hposition
      refine ⟨rfl, rfl, _, _, hread, ?_⟩
      rw [hc]
      rfl
  definition := fun _ _ _ m hm hvalid => by
    rw [Stage.definition] at hm
    obtain rfl := Content.macroDef.inj hm
    exact absurd hvalid (by simp)

end Import

/-! ### Files -/

namespace Catalog

/-- The chunks of a file stand in order, and its invalid macros are single lines of these
bytes. -/
structure Orderly (file : Catalog) (replaced : Bytes) : Prop where
  /-- The top-level chunks have ascending places and do not overlap. -/
  apart : file.chunks.toList.Pairwise fun a b =>
    a.position < b.position ∧ a.line < b.line ∧ a.stop ≤ b.position
  /-- The chunks in a body stand in the range of the macro, behind its own line. -/
  within : ∀ c ∈ file.allChunks, ∀ d, some d ∈ c.body →
    c.position ≤ d.position ∧ d.stop ≤ c.stop ∧ c.line < d.line
  /-- An invalid macro has nothing but its name, and covers what one reading of a line
  takes from the bytes. -/
  invalid : ∀ c ∈ file.allChunks, ∀ m, c.content = .macroDef m → m.valid = false →
    m.parameters = [] ∧ m.body = [] ∧ ∃ text cursor,
      Cursor.readLine { source := .ofBytes replaced, position := c.position } =
        .ok (some text, cursor) ∧ c.position + c.length = cursor.position

/-- The import of a source that is rewritten ends.  Its scan has come to the end of the
input, the chunks that it found are all filed, in the order in which they were found, and
every dispatch went on. -/
theorem orderly_of_rewritten (mode : Mode) (includes : List Catalog) (path : SourcePath)
    (original replaced : Bytes) (offset start : Nat) :
    ∃ file entries g,
      (ofSource { mode, includes } path (.rewritten original offset replaced) start false).result =
        .ok file ∧
      Import.Scans { mode, includes } (.initial path (.rewritten original offset replaced) start)
        entries g ∧
      g.AtEnd ∧ g.catalog = file ∧ file.chunks.toList = present entries ∧
      file.Orderly replaced ∧
      (∀ fuel s e s', Import.chunk { mode, includes } (Import.body { mode, includes } fuel []) s =
        .ok e s' → Import.Measured s e s') ∧
      ∀ from' s text s', Import.lineAt from' s = .ok (some text) s' →
        from' < s'.cursor.position := by
  obtain ⟨file, hfile⟩ : ∃ file, (ofSource { mode, includes } path
      (.rewritten original offset replaced) start false).result = .ok file :=
    exists_ok_of_sound rfl Source.movable_sound ⟨rfl, rfl, rfl⟩
      fun s hs => ⟨hs.fault, hs.unwatched⟩
  obtain ⟨entries, g, hscan, hg⟩ := exists_scans hfile
  have hfiled : (Import.Stage.initial path (.rewritten original offset replaced) start).Filed :=
    fun _ hd => absurd hd List.not_mem_nil
  have hchunks : file.chunks.toList = present entries := hg ▸ hscan.toList_chunks hfiled
  refine ⟨file, entries, g, hfile, hscan, hscan.atEnd, hg, hchunks, ?_,
    fun _ _ _ _ => Import.measured_of_chunk, fun _ _ _ _ => Import.position_lt_of_lineAt⟩
  constructor
  · rw [hchunks]
    refine hscan.ordered.imp fun hab => ?_
    obtain ⟨hstop, hposition, hline⟩ := hab _ (Chunk.mem_all_self _) _ (Chunk.mem_all_self _)
    exact ⟨hposition, hline, hstop⟩
  · intro c hc d hd
    rw [allChunks, hchunks] at hc
    obtain ⟨hposition, hstop, hline⟩ :=
      hscan.forall_chunk (Import.carries_within _) (fun _ => trivial) trivial hc d hd
    exact ⟨Nat.le_of_lt hposition, hstop, hline⟩
  · intro c hc
    rw [allChunks, hchunks] at hc
    refine hscan.forall_chunk (Import.carries_invalid _ offset replaced) ?_ (Or.inl rfl) hc
    intro g e hg
    cases e with
    | none => exact hg
    | some c => exact hg

/-- A header that is overwritten as soon as it has been classified makes an invalid macro of
the line that stands there then. -/
example : ((ofSource {} default
      (.rewritten (Utf8.encode ['m', ' ', 'm', 'a', 'c', 'r', 'o', '\n']) 0
        (Utf8.encode ['x', '\n'])) 0 false).result.toOption.map fun file =>
      file.allChunks.map fun c => (c.position, c.length, c.definition?.map (·.valid))) =
    some [(0, 2, some false)] := by decide +kernel

end Catalog

end AsmCatalog
