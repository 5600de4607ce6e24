/-
An import of reliable bytes, one line at a time.

The import reads each line up to three times and moves its cursor back each time.
Over bytes that stay as they are and are always handed out this comes to the same
as taking the lines from a list: `Stands` ties the offset of the cursor and the
number of the last line to the lines that are left, and every step of the import
that takes a line keeps it.

Main definitions:
* `Import.Stands` — a state of an import whose cursor stands before given lines;
* `Import.Took` — what a part of an import adds to the catalog and the events.

Main statements:
* `Import.chunk_line` — what the import makes of a line that begins no definition;
* `Import.chunk_definition` — what it makes of a definition, by what it makes of the body.
-/
import AsmCatalog.Import
import AsmCatalog.Proofs.LineContent

namespace AsmCatalog

/-- How a file is imported with a context, when nothing interrupts the import. -/
def FileContext.settings (f : FileContext) : Import.Settings :=
  { mode := f.mode, includes := f.includes }

/-! ### The cursor over reliable bytes -/

namespace Cursor

variable {bytes : Bytes} {c : Cursor}

theorem handedOut_eq (hs : c.source = .ofBytes bytes) (hc : c.stopped = false) (count : Nat) :
    c.handedOut count = c := by
  obtain ⟨source, position, lastLength, stopped⟩ := c
  cases hs
  cases hc
  rfl

theorem atEnd_eq (hs : c.source = .ofBytes bytes) (hc : c.stopped = false) :
    atEnd c = .ok (decide (bytes.length ≤ c.position), c) := by
  have hrest : c.rest = bytes.drop c.position := by rw [rest, hs]; rfl
  have hempty : (bytes.drop c.position).isEmpty = decide (bytes.length ≤ c.position) := by
    rw [Bool.eq_iff_iff]
    simp
  simp only [atEnd, handedOut_eq hs hc, hrest, hempty, hs]
  rfl

theorem readLine_eq (hs : c.source = .ofBytes bytes) (hc : c.stopped = false)
    {l : PhysicalLine} (hl : l.FoundIn bytes) (hp : c.position = l.position) :
    readLine c =
      .ok (some l.text, { c with position := l.stop, lastLength := l.contentLength }) := by
  obtain ⟨hlt, hfound⟩ := hl
  have hline : c.source.lineAt l.position = l.bytes := by
    rw [hs, hfound]
    rfl
  have hne : l.bytes ≠ [] := by
    rw [hfound]
    exact lineFound_bytes_ne_nil hlt l.number
  have htext : l.text = lineText l.position l.bytes := by
    rw [hfound]
    rfl
  have hfailure : c.source.failure? (c.source.lastTouched l.position) = none := by
    rw [hs]
    rfl
  simp only [readLine, hp, hfailure, hline, handedOut_eq hs hc, List.isEmpty_iff, if_neg hne,
    htext]
  rfl

theorem seek_eq (hs : c.source = .ofBytes bytes) (offset : Nat) :
    seek offset c = .ok ((), { c with position := offset }) := by
  obtain ⟨source, position, lastLength, stopped⟩ := c
  cases hs
  rfl

theorem peekLine_eq (hs : c.source = .ofBytes bytes) (hc : c.stopped = false)
    {l : PhysicalLine} (hl : l.FoundIn bytes) (hp : c.position = l.position) :
    peekLine c = .ok (some l.text, { c with lastLength := l.contentLength }) := by
  simp only [peekLine, readLine_eq hs hc hl hp]
  rw [seek_eq (by exact hs)]

end Cursor

namespace Import

/-! ### States before given lines -/

/-- A state of an import of reliable bytes whose cursor stands before these lines.  All
that has been catalogued lies before the cursor. -/
structure Stands (bytes : Bytes) (f : FileContext) (lines : List PhysicalLine) (s : State) :
    Prop where
  source : s.cursor.source = .ofBytes bytes
  running : s.cursor.stopped = false
  lines : linesFrom bytes s.cursor.position (s.line + 1) = lines
  path : s.catalog.path = f.path
  constants : ∀ c ∈ s.catalog.constants, c.position < s.cursor.position
  chunks : ∀ c ∈ s.catalog.chunks.toList, c.path = f.path ∧ c.position < s.cursor.position

/-- A part of an import that took these lines, and added no top-level chunk.  The
constants are those of the lines. -/
structure Took (f : FileContext) (taken : List PhysicalLine) (events : List Event)
    (s s' : State) : Prop where
  position : s'.cursor.position = s.cursor.position + extent taken
  chunks : s'.catalog.chunks = s.catalog.chunks
  constants :
    s'.catalog.constants = s.catalog.constants ++ constantsOf f.path f.mode taken
  events : s'.events.toList = s.events.toList ++ events

theorem Took.trans {f : FileContext} {a b : List PhysicalLine} {e₁ e₂ : List Event}
    {s₁ s₂ s₃ : State} (h : Took f a e₁ s₁ s₂) (h' : Took f b e₂ s₂ s₃) :
    Took f (a ++ b) (e₁ ++ e₂) s₁ s₃ where
  position := by rw [h'.position, h.position, extent_append, Nat.add_assoc]
  chunks := h'.chunks.trans h.chunks
  constants := by rw [h'.constants, h.constants, constantsOf_append, List.append_assoc]
  events := by rw [h'.events, h.events, List.append_assoc]

theorem Took.emit {f : FileContext} {taken : List PhysicalLine} {events : List Event}
    {s s' : State} (h : Took f taken events s s') (e : Event) :
    Took f taken (events ++ [e]) s { s' with events := s'.events.push e } where
  position := h.position
  chunks := h.chunks
  constants := h.constants
  events := by rw [Array.toList_push, h.events, List.append_assoc]

/-- The state in which the line `l` has been read and counted. -/
def State.past (s : State) (l : PhysicalLine) : State :=
  { s with
    cursor := { s.cursor with position := l.stop, lastLength := l.contentLength }
    line := l.number }

namespace Stands

variable {bytes : Bytes} {f : FileContext} {l : PhysicalLine} {rest : List PhysicalLine}
  {s : State}

theorem first (h : Stands bytes f (l :: rest) s) :
    l.FoundIn bytes ∧ s.cursor.position = l.position ∧ s.line + 1 = l.number ∧
      l.position < l.stop ∧ rest = linesFrom bytes l.stop (l.number + 1) := by
  obtain ⟨hlt, hl, hrest⟩ := eq_lineFound_of_linesFrom h.lines
  have hp : l.position = s.cursor.position := by rw [hl]; rfl
  have hn : l.number = s.line + 1 := by rw [hl]; rfl
  have hne : l.bytes ≠ [] := by rw [hl]; exact lineFound_bytes_ne_nil hlt _
  have hpos := List.length_pos_iff.mpr hne
  refine ⟨⟨hp ▸ hlt, by rw [hp, hn]; exact hl⟩, hp.symm, hn.symm, ?_, hn ▸ hrest⟩
  rw [PhysicalLine.stop]
  omega

theorem emit {lines : List PhysicalLine} (h : Stands bytes f lines s) (e : Event) :
    Stands bytes f lines { s with events := s.events.push e } :=
  ⟨h.source, h.running, h.lines, h.path, h.constants, h.chunks⟩

theorem past (h : Stands bytes f (l :: rest) s) : Stands bytes f rest (s.past l) := by
  obtain ⟨-, hp, -, hlt, hrest⟩ := h.first
  refine ⟨h.source, h.running, hrest.symm, h.path, fun c hc => ?_, fun c hc => ?_⟩
  · have := h.constants c hc
    show c.position < l.stop
    omega
  · obtain ⟨hpath, hpos⟩ := h.chunks c hc
    refine ⟨hpath, ?_⟩
    show c.position < l.stop
    omega

end Stands

/-! ### One line -/

theorem bind_apply {α β : Type} (m : Step α) (k : α → Step β) (s : State) :
    (m >>= k) s =
      match m s with
      | .ok a s' => k a s'
      | .error e s' => .error e s' := by
  show EStateM.bind m k s = _
  unfold EStateM.bind
  cases m s <;> rfl

theorem pure_apply {α : Type} (a : α) (s : State) : (pure a : Step α) s = .ok a s := rfl

theorem throw_apply {α : Type} (e : ImportError) (s : State) :
    (throw e : Step α) s = .error e s := rfl

theorem position_apply (s : State) : position s = .ok s.cursor.position s := rfl

theorem nextLine_apply (s : State) :
    nextLine s = .ok (s.line + 1) { s with line := s.line + 1 } := rfl

theorem place_apply (start : Nat) (line : Int) (length : Nat) (content : Content Chunk)
    (s : State) :
    place start line length content s = .ok ⟨s.catalog.path, start, line, length, content⟩ s :=
  rfl

theorem get_apply (s : State) : (get : Step State) s = .ok s s := rfl

theorem modify_apply (g : State → State) (s : State) :
    (modify g : Step Unit) s = .ok () (g s) := rfl

section Line

variable {bytes : Bytes} {f : FileContext} {l : PhysicalLine} {rest : List PhysicalLine}
  {s : State}

theorem reading_readLine (h : Stands bytes f (l :: rest) s) :
    reading Cursor.readLine s = .ok (some l.text)
      { s with cursor := (s.past l).cursor } := by
  obtain ⟨hl, hp, -⟩ := h.first
  rw [reading, Cursor.readLine_eq h.source h.running hl hp]
  rfl

theorem reading_peekLine (h : Stands bytes f (l :: rest) s) :
    reading Cursor.peekLine s = .ok (some l.text)
      { s with cursor := { s.cursor with lastLength := l.contentLength } } := by
  obtain ⟨hl, hp, -⟩ := h.first
  rw [reading, Cursor.peekLine_eq h.source h.running hl hp]

theorem reading_atEnd {lines : List PhysicalLine} (h : Stands bytes f lines s) :
    reading Cursor.atEnd s = .ok (decide (lines = [])) s := by
  have hend : decide (bytes.length ≤ s.cursor.position) = decide (lines = []) := by
    rw [← h.lines]
    exact decide_eq_decide.mpr linesFrom_eq_nil.symm
  rw [reading, Cursor.atEnd_eq h.source h.running, hend]

/-- A parser that goes back to the line finds it once more. -/
theorem lineAt_past (h : Stands bytes f (l :: rest) s) :
    lineAt l.position (s.past l) = .ok (some l.text) (s.past l) := by
  obtain ⟨hl, -⟩ := h.first
  have hseek : reading (Cursor.seek l.position) (s.past l) =
      .ok () { s.past l with cursor := { (s.past l).cursor with position := l.position } } := by
    rw [reading, Cursor.seek_eq (show (s.past l).cursor.source = _ from h.source)]
  rw [lineAt, bind_apply, hseek]
  simp only []
  rw [reading, Cursor.readLine_eq (by exact h.source) (by exact h.running) hl rfl]
  rfl

theorem comment_past (h : Stands bytes f (l :: rest) s) :
    comment l.position l.number (s.past l) =
      .ok (some ⟨f.path, l.position, l.number, l.contentLength, .comment (commentText l.text)⟩)
        (s.past l) := by
  simp only [comment, bind_apply, lineAt_past h, get_apply, place_apply, pure_apply]
  rw [show (s.past l).catalog.path = f.path from h.path]
  rfl

theorem ofChunk?_statement (hkind : l.kind = .statement) (x : LineContext) :
    Constant.ofChunk? ⟨x.path, l.position, l.number, l.bytes.length,
      .statement (.parse x.mode x.candidates l.text)⟩ = l.constant? x.path x.mode := by
  rw [PhysicalLine.constant?, ← equate?_parse hkind x.mode x.candidates]
  rfl

theorem declare_of_before {file : Catalog} {c : Constant}
    (h : ∀ d ∈ file.constants, d.position < c.position) :
    file.declare c = { file with constants := file.constants ++ [c] } := by
  rw [Catalog.declare, if_neg]
  rw [List.any_eq_true]
  rintro ⟨d, hd, hsame⟩
  have hlt := h d hd
  have hsame' : d.key.position = c.key.position := by
    simp only [ChunkKey.same, Bool.and_eq_true, beq_iff_eq] at hsame
    exact hsame.1.1
  have heq : d.position = c.position := hsame'
  omega

theorem statement_past (h : Stands bytes f (l :: rest) s) (hkind : l.kind = .statement) :
    ∃ s', statement f.settings l.position l.number (s.past l) =
        .ok (some ⟨f.path, l.position, l.number, l.bytes.length,
          .statement (.parse f.mode (f.callable s.catalog.chunks.toList) l.text)⟩) s' ∧
      Stands bytes f rest s' ∧ Took f [l] [] s s' := by
  have hvisible : visibleMacros (visibleCatalogs f.includes (s.past l).catalog) =
      f.callable s.catalog.chunks.toList := visibleMacros_eq_callable f h.path
  have hlength : (s.past l).cursor.position - l.position = l.bytes.length :=
    Nat.add_sub_cancel_left ..
  have hpath : (s.past l).catalog.path = f.path := h.path
  have hconstant := ofChunk?_statement hkind (f.behind s.catalog.chunks.toList)
  obtain ⟨-, hp, -, hlt, -⟩ := h.first
  have hposition : (s.past l).cursor.position = s.cursor.position + extent [l] := by
    rw [hp, extent_cons]
    rfl
  simp only [FileContext.behind] at hconstant
  simp only [statement, bind_apply, lineAt_past h, position_apply, get_apply, place_apply,
    FileContext.settings, hvisible, hlength, hpath, hconstant]
  cases hc : l.constant? f.path f.mode with
  | none =>
    refine ⟨s.past l, rfl, h.past, hposition, rfl, ?_, ?_⟩
    · rw [constantsOf, List.filterMap_cons, hc]
      exact (List.append_nil _).symm
    · exact (List.append_nil _).symm
  | some c =>
    have hcp := PhysicalLine.constant?_position hc
    -- All constants so far lie before the line, so the new one is not there yet.
    have hbefore : ∀ d ∈ s.catalog.constants, d.position < c.position := fun d hd => by
      rw [hcp, ← hp]
      exact h.constants d hd
    refine ⟨{ s.past l with catalog := s.catalog.declare c }, rfl, ?_, ?_⟩
    · rw [declare_of_before hbefore]
      refine ⟨h.source, h.running, h.past.lines, h.path, fun d hd => ?_, h.past.chunks⟩
      rcases List.mem_append.mp hd with hd | hd
      · exact h.past.constants d hd
      · rw [List.mem_singleton.mp hd, hcp]
        exact hlt
    · rw [declare_of_before hbefore]
      refine ⟨hposition, rfl, ?_, (List.append_nil _).symm⟩
      rw [constantsOf, List.filterMap_cons, hc]
      rfl

/-- How a chunk goes on when its line has been read and counted: the parser for its kind
goes back to the line, and what it finds is reported unless it is blank. -/
def report (start : Nat) (line : Int) (found : Option Chunk) : Step (Option Chunk) :=
  match found.filter (!·.isBlank) with
  | none => pure none
  | some c => do
    emit (.chunk line start c.length c.kind)
    pure (some c)

theorem report_some {c : Chunk} {start : Nat} {line : Int} (hp : c.position = start)
    (hl : c.line = line) (hc : c.isBlank = false) (s : State) :
    report start line (some c) s = .ok (some c) { s with events := s.events.push c.event } := by
  subst hp hl
  rw [report, Option.filter_some_pos (by simp [hc])]
  rfl

theorem report_blank {c : Chunk} (hc : c.isBlank = true) (start : Nat) (line : Int)
    (s : State) : report start line (some c) s = .ok none s := by
  rw [report, Option.filter_some_neg (by simp [hc])]
  rfl

/-- The parser for the kind of a line. -/
def parserOf (settings : Settings) (body : Step (List (Option Chunk) × Bool))
    (l : PhysicalLine) : Step (Option Chunk) :=
  match l.kind with
  | .comment => comment l.position l.number
  | .macroDef => macroDef settings body l.position l.number
  | .statement => statement settings l.position l.number

theorem chunk_apply (h : Stands bytes f (l :: rest) s) (settings : Settings)
    (body : Step (List (Option Chunk) × Bool)) :
    chunk settings body s =
      (parserOf settings body l >>= report l.position l.number) (s.past l) := by
  obtain ⟨-, hp, hn, -⟩ := h.first
  have hnext : nextLine { s with cursor := (s.past l).cursor } = .ok l.number (s.past l) := by
    rw [nextLine_apply, hn]
    rfl
  have hkind : ChunkKind.classify (some l.text) = .ok l.kind := rfl
  conv =>
    lhs
    simp only [chunk, bind_apply, position_apply, reading_readLine h, hkind, hnext, hp]
  rw [parserOf]
  cases l.kind <;> rfl

/-- What the import makes of a line that begins no definition. -/
theorem chunk_line (h : Stands bytes f (l :: rest) s) (hkind : l.kind ≠ .macroDef)
    (body : Step (List (Option Chunk) × Bool)) :
    ∃ s', chunk f.settings body s = .ok (l.entry (f.behind s.catalog.chunks.toList)) s' ∧
      Stands bytes f rest s' ∧
      Took f [l] ((l.entry (f.behind s.catalog.chunks.toList)).map Chunk.event).toList s s' := by
  obtain ⟨-, hp, -⟩ := h.first
  rw [chunk_apply h, bind_apply, parserOf]
  rcases PhysicalLine.kind_cases hkind with hk | hk
  · have htook : Took f [l] [] s (s.past l) := by
      refine ⟨?_, rfl, ?_, (List.append_nil _).symm⟩
      · rw [hp, extent_cons]
        rfl
      · rw [constantsOf_cons, PhysicalLine.constant?_eq_none (by simp [hk])]
        exact (List.append_nil _).symm
    rw [PhysicalLine.entry_comment hk, hk]
    simp only [comment_past h]
    refine ⟨_, report_some ?_ ?_ ?_ (s.past l), h.past.emit _, htook.emit _⟩ <;> rfl
  · obtain ⟨s', hs', hstands, htook⟩ := statement_past h hk
    rw [PhysicalLine.entry_statement hk, hk]
    simp only [hs']
    -- The statement parser has no notion of a blank line; what it finds is dropped later.
    cases hb : l.isBlank with
    | true =>
      refine ⟨s', report_blank ?_ _ _ s', hstands, htook⟩
      exact hb
    | false =>
      refine ⟨_, report_some ?_ ?_ ?_ s', hstands.emit _, htook.emit _⟩
      · rfl
      · rfl
      · exact hb

/-- What the parser of definitions makes of a header, by what `step` makes of the body. -/
theorem macroDef_past (h : Stands bytes f (l :: rest) s) (hkind : l.kind = .macroDef)
    {header : MacroHeader} (hh : l.header? f.mode = some header)
    {entries : List (Option Chunk)} {ended : Bool} {taken left : List PhysicalLine}
    {events : List Event} {step : Step (List (Option Chunk) × Bool)} {s₁ : State}
    (hstep : step (s.past l) = .ok (entries, ended) s₁) (hstands : Stands bytes f left s₁)
    (htook : Took f taken events (s.past l) s₁) :
    ∃ s', macroDef f.settings step l.position l.number (s.past l) =
        .ok (some (l.definition (f.behind s.catalog.chunks.toList) header entries
          (extent taken))) s' ∧
      Stands bytes f left s' ∧
      Took f (l :: taken)
        (events ++ if ended then [] else [.unterminated header.name l.number]) s s' := by
  have hh' : MacroHeader.parse? f.settings.mode (Text.normalize l.text) = some header := hh
  -- The length is measured with the cursor, which has moved over the header and the body.
  have hlength : s₁.cursor.position - l.position = l.bytes.length + extent taken := by
    rw [htook.position]
    show l.stop + _ - _ = _
    rw [PhysicalLine.stop, Nat.add_assoc, Nat.add_sub_cancel_left]
  have hpath : s₁.catalog.path = f.path := hstands.path
  obtain ⟨-, hp, -⟩ := h.first
  have hline : Took f [l] [] s (s.past l) := by
    refine ⟨?_, rfl, ?_, (List.append_nil _).symm⟩
    · rw [hp, extent_cons]
      rfl
    · rw [constantsOf_header hkind]
      exact (List.append_nil _).symm
  have htook' : Took f (l :: taken) events s s₁ := hline.trans htook
  simp only [macroDef, bind_apply, lineAt_past h, hh', hstep, position_apply, hlength]
  cases ended with
  | true =>
    refine ⟨s₁, ?_, hstands, ?_⟩
    · simp only [PhysicalLine.definition, FileContext.behind, ← hpath]
      rfl
    · rw [if_pos rfl, List.append_nil]
      exact htook'
  | false =>
    refine ⟨_, ?_, hstands.emit (.unterminated header.name l.number), htook'.emit _⟩
    simp only [PhysicalLine.definition, FileContext.behind, ← hpath]
    rfl

/-- What the import makes of a definition, by what it makes of the body. -/
theorem chunk_definition (h : Stands bytes f (l :: rest) s) (hkind : l.kind = .macroDef)
    {body : Outline} {ended : Bool} {left : List PhysicalLine}
    {step : Step (List (Option Chunk) × Bool)} {s₁ : State}
    (hstep : step (s.past l) =
      .ok (body.entries (f.behind s.catalog.chunks.toList), ended) s₁)
    (hstands : Stands bytes f left s₁)
    (htook : Took f body.lines (body.events (f.behind s.catalog.chunks.toList))
      (s.past l) s₁) :
    ∃ s', chunk f.settings step s =
        .ok (Outline.definition? (f.behind s.catalog.chunks.toList) l body) s' ∧
      Stands bytes f left s' ∧
      Took f (l :: body.lines)
        ((Outline.definition l body ended .nil).events (f.behind s.catalog.chunks.toList))
        s s' := by
  obtain ⟨header, hh⟩ := PhysicalLine.exists_header? hkind f.mode
  have hh' : l.header? (f.behind s.catalog.chunks.toList).mode = some header := hh
  obtain ⟨s₂, hs₂, hstands₂, htook₂⟩ := macroDef_past h hkind hh hstep hstands htook
  rw [chunk_apply h, bind_apply, parserOf, hkind]
  simp only [hs₂, Outline.definition?, Outline.events, hh', Option.map_some,
    Option.toList_some, List.append_nil]
  refine ⟨_, report_some ?_ ?_ ?_ s₂, hstands₂.emit _, htook₂.emit _⟩ <;> rfl

end Line

end Import

end AsmCatalog
