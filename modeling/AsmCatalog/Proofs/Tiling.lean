/-
The chunks of a source tile it.

A chunk of a statement covers its line with the terminator, and a macro all lines through
the end of its definition, but the chunk of a comment leaves its terminator out and a
blank line has no chunk.  Here it is shown that nothing else is left over: at the top
level the bytes outside all chunks are those terminators and those lines, and inside a
macro the entries stand one behind the other up to its end.

Main definitions:
* `terminatorLength`, `Chunk.extentStop` — where the lines of a chunk end;
* `Tiles` — entries stand one behind the other between two offsets;
* `Accounted` — every byte between two offsets is in a chunk or known not to be.

Main statements:
* `PhysicalLine.stop_eq` — a line ends behind its content and its terminator;
* `Accounted.append` — what is accounted for piece by piece is accounted for;
* `Catalog.tiled_of_fixed` — the chunks of an import tile the source.
-/
import AsmCatalog.Proofs.FixedSource

namespace AsmCatalog

/-! ### Terminators -/

/-- The length of the `\n` or `\r\n` that some bytes begin with, if they do. -/
def terminatorLength : Bytes → Nat
  | 10 :: _ => 1
  | 13 :: 10 :: _ => 2
  | _ => 0

/-- A line ends behind its content and its terminator. -/
theorem PhysicalLine.stop_eq {bytes : Bytes} {l : PhysicalLine} (h : l.FoundIn bytes) :
    l.position + l.contentLength +
        terminatorLength (bytes.drop (l.position + l.contentLength)) = l.stop := by
  obtain ⟨-, hl⟩ := h
  have hbytes : l.bytes = throughNewline (bytes.drop l.position) := by
    rw [hl]
    rfl
  obtain ⟨tail, htail⟩ := throughNewline_prefix (bytes.drop l.position)
  rw [← hbytes] at htail
  obtain ⟨t, ht, hcases⟩ := exists_terminator l.bytes
  have hall : bytes.drop l.position = withoutTerminator l.bytes ++ (t ++ tail) := by
    rw [← List.append_assoc, ← ht, htail]
  have hrest : bytes.drop (l.position + l.contentLength) = t ++ tail := by
    rw [← List.drop_drop, hall]
    exact List.drop_left
  have hlength : l.bytes.length = l.contentLength + t.length := by
    rw [contentLength, ← List.length_append, ← ht]
  rw [hrest, stop, hlength, Nat.add_assoc]
  congr 2
  rcases hcases with ⟨rfl, hnewline⟩ | ⟨rfl, -⟩ | rfl
  · -- Nothing was cut off, so the line is the last one and nothing comes behind it.
    rcases throughNewline_cases (bytes.drop l.position) with ⟨front, hfront, -⟩ | ⟨hlast, -⟩
    · exact absurd (hbytes.trans hfront) (hnewline front)
    · have htail' : tail = [] := by
        rw [← hbytes, ← htail] at hlast
        simpa using hlast
      rw [htail']
      rfl
  · rfl
  · rfl

/-! ### Entries one behind the other -/

/-- The offset behind the lines of a chunk.  The terminator of a comment is a part of its
line, though not of the chunk. -/
def Chunk.extentStop (bytes : Bytes) (c : Chunk) : Nat :=
  match c.kind with
  | .comment => c.stop + terminatorLength (bytes.drop c.stop)
  | _ => c.stop

/-- The entries stand one behind the other from `position` on and end at `stop`, where an
empty entry stands for a blank line. -/
def Tiles (bytes : Bytes) : Nat → List (Option Chunk) → Nat → Prop
  | position, [], stop => position = stop
  | position, none :: later, stop =>
    position < bytes.length ∧ (lineFound bytes position 0).isBlank = true ∧
      Tiles bytes (lineFound bytes position 0).stop later stop
  | position, some c :: later, stop =>
    c.position = position ∧ Tiles bytes (c.extentStop bytes) later stop

theorem PhysicalLine.FoundIn.unnumbered {bytes : Bytes} {l : PhysicalLine}
    (h : l.FoundIn bytes) :
    (lineFound bytes l.position 0).isBlank = l.isBlank ∧
      (lineFound bytes l.position 0).stop = l.stop := by
  have hblank : (lineFound bytes l.position 0).isBlank =
      (lineFound bytes l.position l.number).isBlank := rfl
  have hstop : (lineFound bytes l.position 0).stop =
      (lineFound bytes l.position l.number).stop := rfl
  rw [← h.2] at hblank hstop
  exact ⟨hblank, hstop⟩

theorem extentStop_of_macroDef {c : Chunk} (h : c.kind = .macroDef) (bytes : Bytes) :
    c.extentStop bytes = c.stop := by
  rw [Chunk.extentStop, h]

/-- The lines of a chunk that is no definition are its line. -/
theorem extentStop_entry {bytes : Bytes} {l : PhysicalLine} (hl : l.FoundIn bytes)
    (hkind : l.kind ≠ .macroDef) {x : LineContext} {c : Chunk} (hc : l.entry x = some c) :
    c.extentStop bytes = l.stop := by
  rcases PhysicalLine.kind_cases hkind with hk | hk
  · rw [PhysicalLine.entry_comment hk] at hc
    obtain rfl := Option.some.inj hc
    exact PhysicalLine.stop_eq hl
  · rw [PhysicalLine.entry_statement hk] at hc
    split at hc
    · exact absurd hc (by simp)
    · obtain rfl := Option.some.inj hc
      rfl

namespace Outline.Makes

variable {f : FileContext} {o : Outline} {entries : List (Option Chunk)} {bytes : Bytes}
  {position : Nat} {number : Int}

/-- The entries of an outline stand one behind the other where its lines do. -/
theorem tiles (h : o.Makes f entries) (hlines : LaidOut bytes position number o.lines) :
    Tiles bytes position entries (position + extent o.lines) := by
  induction h generalizing position number with
  | nil => rfl
  | @line l next later found hkind _ ih =>
    have hl := hlines.found
    obtain ⟨rfl, rfl, hrest⟩ := hlines.first
    have hnext := ih hrest
    rw [Outline.add_extent_line]
    rcases PhysicalLine.entry_cases hkind (f.behind found) with
      ⟨hblank, hentry⟩ | ⟨-, c, hentry, -⟩
    · obtain ⟨hsame, hstop⟩ := hl.unnumbered
      rw [hentry]
      refine ⟨hl.1, hsame.trans hblank, ?_⟩
      rw [hstop]
      exact hnext
    · obtain ⟨-, hc, -⟩ := PhysicalLine.place_of_entry hkind hentry
      rw [hentry]
      refine ⟨hc, ?_⟩
      rw [extentStop_entry hl hkind hentry]
      exact hnext
  | @definition h body next ended header inner later found _ _ _ _ _ ihn =>
    obtain ⟨rfl, rfl, hrest⟩ := hlines.first
    obtain ⟨-, hbehind⟩ := laidOut_append.mp hrest
    refine ⟨rfl, ?_⟩
    rw [extentStop_of_macroDef rfl, PhysicalLine.definition_stop, Outline.add_extent_definition]
    exact ihn hbehind

/-- The body of every definition inside the entries of an outline stands behind its header
up to its end. -/
theorem tiles_body (h : o.Makes f entries) (hlines : LaidOut bytes position number o.lines)
    {c : Chunk} (hc : c ∈ (present entries).flatMap Chunk.all) (hkind : c.kind = .macroDef) :
    Tiles bytes (lineFound bytes c.position 0).stop c.body c.stop := by
  induction h generalizing position number with
  | nil => exact absurd hc List.not_mem_nil
  | @line l next later found hl _ ih =>
    obtain ⟨-, -, hrest⟩ := hlines.first
    rcases (PhysicalLine.mem_all_entry hl).mp hc with hentry | hc
    · obtain ⟨-, -, -, hck⟩ := PhysicalLine.place_of_entry hl hentry
      exact absurd (hck.symm.trans hkind) hl
    · exact ih hrest hc
  | @definition h body next ended header inner later found _ _ hbody _ ihb ihn =>
    have hl := hlines.found
    obtain ⟨rfl, rfl, hrest⟩ := hlines.first
    obtain ⟨hinside, hbehind⟩ := laidOut_append.mp hrest
    rcases PhysicalLine.mem_all_definition.mp hc with rfl | hc | hc
    · rw [PhysicalLine.definition_position, hl.unnumbered.2, PhysicalLine.definition_body,
        PhysicalLine.definition_stop]
      exact hbody.tiles hinside
    · exact ihb hinside hc
    · exact ihn hbehind hc

end Outline.Makes

/-! ### Every byte -/

/-- The byte at `i` is in the chunk. -/
def Chunk.Covers (c : Chunk) (i : Nat) : Prop := c.position ≤ i ∧ i < c.stop

/-- The byte at `i` is in the terminator of a comment, or in a blank line outside all
macros. -/
def Bare (bytes : Bytes) (lines : List PhysicalLine) (chunks : List Chunk) (i : Nat) : Prop :=
  (∃ c ∈ chunks, c.kind = .comment ∧ c.stop ≤ i ∧
    i < c.stop + terminatorLength (bytes.drop c.stop)) ∨
  ∃ l ∈ lines, l.isBlank = true ∧ (∀ c ∈ chunks, c.kind = .macroDef → ¬ c.Covers l.position) ∧
    l.position ≤ i ∧ i < l.stop

/-- The lines and the chunks of a run of lines between two offsets, in which the chunks
leave exactly the bare bytes over. -/
structure Accounted (bytes : Bytes) (lines : List PhysicalLine) (chunks : List Chunk)
    (position stop : Nat) : Prop where
  lines_within : ∀ l ∈ lines, position ≤ l.position ∧ l.position < l.stop ∧ l.stop ≤ stop
  chunks_within : ∀ c ∈ chunks, position ≤ c.position ∧ c.extentStop bytes ≤ stop
  apart : chunks.Pairwise fun a b => a.stop ≤ b.position
  uncovered : ∀ i, position ≤ i → i < stop →
    ((∀ c ∈ chunks, ¬ c.Covers i) ↔ Bare bytes lines chunks i)

theorem extentStop_of_comment {c : Chunk} (h : c.kind = .comment) (bytes : Bytes) :
    c.extentStop bytes = c.stop + terminatorLength (bytes.drop c.stop) := by
  rw [Chunk.extentStop, h]

theorem extentStop_of_ne_comment {c : Chunk} (h : c.kind ≠ .comment) (bytes : Bytes) :
    c.extentStop bytes = c.stop := by
  rw [Chunk.extentStop]
  split
  · exact absurd ‹_› h
  · rfl

theorem Chunk.stop_le_extentStop (bytes : Bytes) (c : Chunk) : c.stop ≤ c.extentStop bytes := by
  rw [extentStop]
  split
  · exact Nat.le_add_right ..
  · exact Nat.le_refl _

theorem Chunk.position_le_stop (c : Chunk) : c.position ≤ c.stop := Nat.le_add_right ..

namespace Accounted

variable {bytes : Bytes} {lines lines₁ lines₂ : List PhysicalLine}
  {chunks₁ chunks₂ : List Chunk} {p q r : Nat}

theorem nil (bytes : Bytes) (p : Nat) : Accounted bytes [] [] p p where
  lines_within := fun _ h => absurd h List.not_mem_nil
  chunks_within := fun _ h => absurd h List.not_mem_nil
  apart := .nil
  uncovered := fun i hp hi => absurd hi (by omega)

theorem blank {l : PhysicalLine} (hl : l.FoundIn bytes) (hblank : l.isBlank = true) :
    Accounted bytes [l] [] l.position l.stop where
  lines_within := by
    intro l' hl'
    obtain rfl := List.mem_singleton.mp hl'
    exact ⟨Nat.le_refl _, hl.position_lt_stop, Nat.le_refl _⟩
  chunks_within := fun _ h => absurd h List.not_mem_nil
  apart := .nil
  uncovered := by
    intro i hp hi
    refine ⟨fun _ => Or.inr ⟨l, List.mem_singleton_self l, hblank, ?_, hp, hi⟩, fun _ => ?_⟩
    · exact fun _ h => absurd h List.not_mem_nil
    · exact fun _ h => absurd h List.not_mem_nil

/-- Of the lines of one chunk, at most its terminator is left over. -/
theorem single {c : Chunk} (hlines : ∀ l ∈ lines, p ≤ l.position ∧ l.position < l.stop ∧
      l.stop ≤ q) (hposition : c.position = p) (hstop : c.extentStop bytes = q)
    (hblank : ∀ l ∈ lines, l.isBlank = true → c.kind = .macroDef ∧ c.Covers l.position) :
    Accounted bytes lines [c] p q where
  lines_within := hlines
  chunks_within := by
    intro d hd
    obtain rfl := List.mem_singleton.mp hd
    exact ⟨Nat.le_of_eq hposition.symm, Nat.le_of_eq hstop⟩
  apart := List.pairwise_singleton _ _
  uncovered := by
    intro i hp hi
    constructor
    · intro hfree
      have hfree := hfree c (List.mem_singleton_self c)
      have hle : c.stop ≤ i := by
        rw [Chunk.Covers] at hfree
        omega
      -- Only a comment ends before its lines do.
      by_cases hkind : c.kind = .comment
      · rw [extentStop_of_comment hkind] at hstop
        exact Or.inl ⟨c, List.mem_singleton_self c, hkind, hle, by omega⟩
      · rw [extentStop_of_ne_comment hkind] at hstop
        omega
    · rintro (⟨d, hd, -, hle, -⟩ | ⟨l, hl, hb, houtside, -, -⟩) d' hd' hcovers
      · obtain rfl := List.mem_singleton.mp hd
        obtain rfl := List.mem_singleton.mp hd'
        exact absurd hcovers.2 (by omega)
      · obtain ⟨hkind, hinside⟩ := hblank l hl hb
        exact houtside c (List.mem_singleton_self c) hkind hinside

/-- Before the border between two runs only the first one has bare bytes. -/
theorem bare_append_left (h₁ : Accounted bytes lines₁ chunks₁ p q)
    (h₂ : Accounted bytes lines₂ chunks₂ q r) {i : Nat} (hi : i < q) :
    Bare bytes (lines₁ ++ lines₂) (chunks₁ ++ chunks₂) i ↔ Bare bytes lines₁ chunks₁ i := by
  constructor
  · rintro (⟨c, hc, hkind, hle, hlt⟩ | ⟨l, hl, hblank, houtside, hle, hlt⟩)
    · rcases List.mem_append.mp hc with hc | hc
      · exact Or.inl ⟨c, hc, hkind, hle, hlt⟩
      · have := h₂.chunks_within c hc
        have := c.position_le_stop
        omega
    · rcases List.mem_append.mp hl with hl | hl
      · exact Or.inr ⟨l, hl, hblank, fun c hc => houtside c (List.mem_append_left _ hc), hle, hlt⟩
      · have := h₂.lines_within l hl
        omega
  · rintro (⟨c, hc, hkind, hle, hlt⟩ | ⟨l, hl, hblank, houtside, hle, hlt⟩)
    · exact Or.inl ⟨c, List.mem_append_left _ hc, hkind, hle, hlt⟩
    · -- A macro behind the border is not around a line before it.
      refine Or.inr ⟨l, List.mem_append_left _ hl, hblank, fun c hc hkind hcovers => ?_, hle, hlt⟩
      rcases List.mem_append.mp hc with hc | hc
      · exact houtside c hc hkind hcovers
      · have := h₂.chunks_within c hc
        have := h₁.lines_within l hl
        exact absurd hcovers.1 (by omega)

/-- Behind the border between two runs only the second one has bare bytes. -/
theorem bare_append_right (h₁ : Accounted bytes lines₁ chunks₁ p q)
    (h₂ : Accounted bytes lines₂ chunks₂ q r) {i : Nat} (hi : q ≤ i) :
    Bare bytes (lines₁ ++ lines₂) (chunks₁ ++ chunks₂) i ↔ Bare bytes lines₂ chunks₂ i := by
  constructor
  · rintro (⟨c, hc, hkind, hle, hlt⟩ | ⟨l, hl, hblank, houtside, hle, hlt⟩)
    · rcases List.mem_append.mp hc with hc | hc
      · have := h₁.chunks_within c hc
        rw [extentStop_of_comment hkind] at this
        omega
      · exact Or.inl ⟨c, hc, hkind, hle, hlt⟩
    · rcases List.mem_append.mp hl with hl | hl
      · have := h₁.lines_within l hl
        omega
      · exact Or.inr ⟨l, hl, hblank, fun c hc => houtside c (List.mem_append_right _ hc), hle,
          hlt⟩
  · rintro (⟨c, hc, hkind, hle, hlt⟩ | ⟨l, hl, hblank, houtside, hle, hlt⟩)
    · exact Or.inl ⟨c, List.mem_append_right _ hc, hkind, hle, hlt⟩
    · -- A macro before the border is not around a line behind it.
      refine Or.inr ⟨l, List.mem_append_right _ hl, hblank, fun c hc hkind hcovers => ?_, hle,
        hlt⟩
      rcases List.mem_append.mp hc with hc | hc
      · have := h₁.chunks_within c hc
        have := c.stop_le_extentStop bytes
        have := h₂.lines_within l hl
        exact absurd hcovers.2 (by omega)
      · exact houtside c hc hkind hcovers

theorem append (h₁ : Accounted bytes lines₁ chunks₁ p q)
    (h₂ : Accounted bytes lines₂ chunks₂ q r) (hpq : p ≤ q) (hqr : q ≤ r) :
    Accounted bytes (lines₁ ++ lines₂) (chunks₁ ++ chunks₂) p r where
  lines_within := by
    intro l hl
    rcases List.mem_append.mp hl with hl | hl
    · have := h₁.lines_within l hl
      omega
    · have := h₂.lines_within l hl
      omega
  chunks_within := by
    intro c hc
    rcases List.mem_append.mp hc with hc | hc
    · have := h₁.chunks_within c hc
      omega
    · have := h₂.chunks_within c hc
      omega
  apart := by
    refine List.pairwise_append.mpr ⟨h₁.apart, h₂.apart, fun a ha b hb => ?_⟩
    have := h₁.chunks_within a ha
    have := h₂.chunks_within b hb
    have := a.stop_le_extentStop bytes
    omega
  uncovered := by
    intro i hpi hir
    by_cases hi : i < q
    · rw [h₁.bare_append_left h₂ hi, ← h₁.uncovered i hpi hi, List.forall_mem_append]
      refine and_iff_left fun c hc hcovers => ?_
      have := h₂.chunks_within c hc
      exact absurd hcovers.1 (by omega)
    · rw [h₁.bare_append_right h₂ (by omega), ← h₂.uncovered i (by omega) hir,
        List.forall_mem_append]
      refine and_iff_right fun c hc hcovers => ?_
      have := h₁.chunks_within c hc
      have := c.stop_le_extentStop bytes
      exact absurd hcovers.2 (by omega)

end Accounted

/-- The lines of an outline are accounted for by its entries. -/
theorem Outline.Makes.accounted {f : FileContext} {o : Outline}
    {entries : List (Option Chunk)} {bytes : Bytes} {position : Nat} {number : Int}
    (h : o.Makes f entries) (hlines : LaidOut bytes position number o.lines) :
    Accounted bytes o.lines (present entries) position (position + extent o.lines) := by
  induction h generalizing position number with
  | nil => exact .nil bytes position
  | @line l next later found hkind _ ih =>
    have hl := hlines.found
    have hlt := hl.position_lt_stop
    obtain ⟨rfl, rfl, hrest⟩ := hlines.first
    have hnext := ih hrest
    rw [Outline.add_extent_line]
    rcases PhysicalLine.entry_cases hkind (f.behind found) with
      ⟨hblank, hentry⟩ | ⟨hblank, c, hentry, -⟩
    · rw [hentry]
      exact (Accounted.blank hl hblank).append hnext (Nat.le_of_lt hlt) (Nat.le_add_right ..)
    · obtain ⟨-, hposition, -⟩ := PhysicalLine.place_of_entry hkind hentry
      have hself : Accounted bytes [l] [c] l.position l.stop := by
        refine .single ?_ hposition (extentStop_entry hl hkind hentry) ?_
        · intro l' hl'
          obtain rfl := List.mem_singleton.mp hl'
          exact ⟨Nat.le_refl _, hlt, Nat.le_refl _⟩
        · intro l' hl' hblank'
          obtain rfl := List.mem_singleton.mp hl'
          exact absurd hblank' (by simp [hblank])
      rw [hentry]
      exact hself.append hnext (Nat.le_of_lt hlt) (Nat.le_add_right ..)
  | @definition h body next ended header inner later found _ _ _ _ _ ihn =>
    have hsplit : LaidOut bytes position number ((h :: body.lines) ++ next.lines) := hlines
    obtain ⟨hown, hbehind⟩ := laidOut_append.mp hsplit
    obtain ⟨rfl, -, -⟩ := hlines.first
    have hstop : h.position + extent (h :: body.lines) = h.stop + extent body.lines := by
      rw [extent_cons, ← Nat.add_assoc]
      rfl
    have hself : Accounted bytes (h :: body.lines)
        [h.definition (f.behind found) header inner (extent body.lines)] h.position
        (h.position + extent (h :: body.lines)) := by
      refine .single (fun l hl => hown.within hl) rfl ?_ ?_
      · rw [extentStop_of_macroDef rfl, PhysicalLine.definition_stop, hstop]
      · intro l hl _
        obtain ⟨hle, hlt, hle'⟩ := hown.within hl
        refine ⟨rfl, hle, ?_⟩
        rw [PhysicalLine.definition_stop, ← hstop]
        omega
    rw [Outline.add_extent_definition, ← hstop]
    exact hself.append (ihn hbehind) (Nat.le_add_right ..) (Nat.le_add_right ..)

/-! ### The chunks of an import -/

namespace Catalog

/-- The chunks of a file tile some bytes from an offset on. -/
structure Tiled (file : Catalog) (bytes : Bytes) (start : Nat) : Prop where
  /-- The top-level chunks lie in the part of the source that was read. -/
  within : ∀ c ∈ file.chunks.toList, start ≤ c.position ∧ c.stop ≤ bytes.length
  /-- They do not overlap, and stand in the order of the set. -/
  apart : file.chunks.toList.Pairwise fun a b => a.stop ≤ b.position
  /-- They leave over the terminators of comments, and the blank lines outside all macros. -/
  uncovered : ∀ i, start ≤ i → i < bytes.length →
    ((∀ c ∈ file.chunks.toList, ¬ c.Covers i) ↔
      Bare bytes (physicalLines bytes start) file.chunks.toList i)
  /-- Behind the header of a macro at any depth its entries stand one behind the other, and
  the last one ends where the macro does. -/
  bodies : ∀ c ∈ file.allChunks, c.kind = .macroDef →
    Tiles bytes (lineFound bytes c.position 0).stop c.body c.stop

/-- The chunks of an import tile the source from the offset on where it began. -/
theorem tiled_of_fixed {settings : Import.Settings} {path : SourcePath} {source : Source}
    {start : Nat} {stopped : Bool} {file : Catalog} (hfixed : source.Fixed)
    (h : (ofSource settings path source start stopped).result = .ok file) :
    file.Tiled source.bytes start := by
  obtain ⟨o, entries, ho, hmakes, hchunks⟩ := exists_makes_of_fixed hfixed h
  have hlines : LaidOut source.bytes start 0 o.lines := by
    rw [ho.lines_eq]
    exact laidOut_linesFrom source.bytes start 0
  have hall := hmakes.accounted hlines
  rw [ho.lines_eq] at hall
  have hend := length_le_extent_linesFrom source.bytes start 0
  rw [← physicalLines] at hend
  constructor
  · intro c hc
    rw [hchunks] at hc
    have := hall.chunks_within c hc
    have := c.stop_le_extentStop source.bytes
    rcases Nat.lt_or_ge start source.bytes.length with hlt | hge
    · have hexact := extent_linesFrom (Nat.le_of_lt hlt) 0
      rw [← physicalLines] at hexact
      omega
    · -- No line is left behind the end, and so there is no chunk.
      have hnone : o.lines = [] := by
        rw [ho.lines_eq]
        exact linesFrom_of_le hge 0
      cases hmakes with
      | nil => exact absurd hc List.not_mem_nil
      | line => exact absurd hnone (List.cons_ne_nil _ _)
      | definition => exact absurd hnone (List.cons_ne_nil _ _)
  · rw [hchunks]
    exact hall.apart
  · intro i hi hlt
    rw [hchunks]
    exact hall.uncovered i hi (by omega)
  · intro c hc hkind
    rw [allChunks, hchunks] at hc
    exact hmakes.tiles_body hlines hc hkind

/-- A source with a comment, a blank line and a statement, and a macro that has all of
these and runs to the end. -/
def tiledSource : Bytes :=
  Utf8.encode
    [';', 'a', '\r', '\n', '\t', '\n', 'b', '\n', 'm', ' ', 'm', 'a', 'c', 'r', 'o', '\n',
      ';', 'c', '\r', '\n', '\n', 'd']

theorem tiled_of_fixed_tiledSource :
    ∃ file, (ofSource {} default (.ofBytes tiledSource) 0 false).result = .ok file ∧
      file.Tiled tiledSource 0 ∧
      file.chunks.toList.map (fun c => (c.position, c.stop)) = [(0, 2), (6, 8), (8, 22)] := by
  obtain ⟨file, hfile⟩ := exists_ok_ofBytes default .legacy [] tiledSource 0
  refine ⟨file, hfile, tiled_of_fixed (Source.fixed_ofBytes _) hfile, ?_⟩
  have hplaces : (ofSource {} default (.ofBytes tiledSource) 0 false).result.toOption.map
      (fun file => file.chunks.toList.map fun c => (c.position, c.stop)) =
      some [(0, 2), (6, 8), (8, 22)] := by decide +kernel
  have hsame : (ofSource {} default (.ofBytes tiledSource) 0 false).result = .ok file := hfile
  rw [hsame] at hplaces
  exact Option.some.inj hplaces

end Catalog

end AsmCatalog
