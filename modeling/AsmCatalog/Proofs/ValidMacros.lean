/-
The macros of a file have headers that can be read.

The line of a macro is read to tell its kind and once more for its header.  As long as the
source keeps its bytes, both readings give one text, a byte order mark at its start included,
and what is taken for a header can be read as one.  So no macro of such an import is invalid,
at any depth, and no header is reported as malformed, not even by an import that fails later.

Main definitions:
* `storedText` — the text of the line at an offset;
* `Chunk.Valid` — every macro in a chunk has a header that could be read;
* `Import.Intact` — the bytes are those of the source, and nothing has been malformed so far;
* `Import.Preserves` — an action keeps it so, with what holds of its value;
* `MacroHeader.Legible` — a header can be read, and cut where it has to be.

Main statements:
* `Import.preserves_chunk`, `Import.preserves_body`, `Import.preserves_scan` — no dispatch
  makes an invalid macro;
* `Catalog.valid_of_fixed` — every header that is recognized is legible, and every macro that
  an import finds is valid.
-/
import AsmCatalog.Proofs.Ensures
import AsmCatalog.Proofs.HeaderOffset
import AsmCatalog.Proofs.FixedSource

namespace AsmCatalog

/-- The text of the line at an offset. -/
def storedText (bytes : Bytes) (position : Nat) : Text :=
  lineText position (throughNewline (bytes.drop position))

/-- Every macro in a chunk, at any depth, has a header that could be read. -/
def Chunk.Valid (c : Chunk) : Prop := ∀ d ∈ c.all, ∀ m, d.definition? = some m → m.valid = true

namespace Chunk

variable {c : Chunk}

theorem valid_of_definition?_eq_none (h : c.definition? = none) : c.Valid := by
  have hbody : c.body = [] := by rw [body, h]; rfl
  intro d hd m hm
  rw [all_of_body_nil hbody, List.mem_singleton] at hd
  rw [hd, h] at hm
  exact absurd hm (by simp)

theorem valid_of_macroDef {m : Macro Chunk} (h : c.content = .macroDef m) (hm : m.valid = true)
    (hbody : ∀ d, some d ∈ m.body → d.Valid) : c.Valid := by
  intro d hd m' hm'
  rcases mem_all_iff.mp hd with rfl | ⟨e, he, hd⟩
  · rw [definition?, h] at hm'
    rw [← Option.some.inj hm']
    exact hm
  · obtain ⟨m₀, hm₀, he⟩ := mem_body_iff.mp he
    obtain rfl : m₀ = m := Content.macroDef.inj (hm₀.symm.trans h)
    exact hbody e he d hd m' hm'

end Chunk

namespace Import

/-! ### Actions that leave nothing malformed -/

/-- The source holds these bytes and keeps them, no malformed header has been reported, and
the chunks so far are valid. -/
structure Intact (bytes : Bytes) (g : Stage) : Prop where
  fixed : g.source.Fixed
  stored : g.source.bytes = bytes
  events : ∀ e ∈ g.events, e.message ≠ "malformed macro header"
  chunks : ∀ c ∈ g.catalog.chunks.toList, c.Valid

/-- An action keeps the import intact even if it fails, and gives what `value` says. -/
def Preserves (bytes : Bytes) {α : Type} (m : Step α) (value : α → Prop) : Prop :=
  Ensures (fun s => Intact bytes s.stage) m (fun a s => value a ∧ Intact bytes s.stage)
    fun _ s => Intact bytes s.stage

variable {bytes : Bytes}

section Reading

variable {s s' : State} {text : Option Text}

/-- A line is read as it is stored at the cursor. -/
theorem Intact.readLine (hs : Intact bytes s.stage)
    (h : reading Cursor.readLine s = .ok text s') :
    (∀ t, text = some t → t = storedText bytes s.cursor.position) ∧ Intact bytes s'.stage := by
  rcases readLine_cases h with ⟨-, rfl, rfl⟩ | ⟨-, rfl, hs', -⟩
  · exact ⟨fun _ ht => absurd ht (by simp), hs⟩
  · rw [hs']
    refine ⟨fun t ht => ?_, hs.fixed, hs.stored, hs.events, hs.chunks⟩
    rw [← Option.some.inj ht, ← hs.stored]
    rfl

theorem Intact.seek {offset : Nat} {u : Unit} (hs : Intact bytes s.stage)
    (h : reading (Cursor.seek offset) s = .ok u s') :
    s'.cursor.position = offset ∧ Intact bytes s'.stage := by
  have hs' := seek_cases h
  obtain ⟨hbytes, hfixed⟩ := hs.fixed.moved offset
  refine ⟨congrArg Stage.position hs', ?_⟩
  rw [hs']
  exact ⟨hfixed, hbytes.trans hs.stored, hs.events, hs.chunks⟩

end Reading

namespace Preserves

variable {α β : Type} {m : Step α} {value : α → Prop} {value' : β → Prop}

theorem pure {a : α} (h : value a) : Preserves bytes (Pure.pure a) value :=
  Ensures.pure fun _ hs => ⟨h, hs⟩

theorem bind {k : α → Step β} (hm : Preserves bytes m value)
    (hk : ∀ a, value a → Preserves bytes (k a) value') : Preserves bytes (m >>= k) value' :=
  Ensures.bind hm fun a => .of_and fun ha => hk a ha

theorem get_bind {k : State → Step β} (hk : ∀ s, Preserves bytes (k s) value') :
    Preserves bytes (get >>= k) value' :=
  Ensures.get_bind hk

theorem modify {g : State → State}
    (hg : ∀ s : State, Intact bytes s.stage → Intact bytes (g s).stage) :
    Preserves bytes (modify g) fun _ => True :=
  Ensures.modify fun s hs => ⟨trivial, hg s hs⟩

theorem throw {e : ImportError} : Preserves bytes (throw e) value :=
  Ensures.throw fun _ hs => hs

theorem ite {c : Prop} [Decidable c] {k : Step α} (hm : Preserves bytes m value)
    (hk : Preserves bytes k value) : Preserves bytes (if c then m else k) value :=
  Ensures.ite hm hk

theorem reading {r : Reading α}
    (hr : ∀ s a s', Intact bytes s.stage → reading r s = .ok a s' → Intact bytes s'.stage) :
    Preserves bytes (reading r) fun _ => True :=
  Ensures.reading_of (fun _ _ _ hs h => ⟨trivial, hr _ _ _ hs h⟩) fun _ _ hs => hs

end Preserves

theorem preserves_atEnd : Preserves bytes (reading Cursor.atEnd) fun _ => True :=
  .reading fun _ _ _ hs h => (atEnd_cases h).2 ▸ hs

theorem preserves_peekLine : Preserves bytes (reading Cursor.peekLine) fun _ => True := by
  refine .reading fun s text s' hs h => ?_
  obtain ⟨s₁, hread, hseek⟩ := peekLine_eq_ok h
  exact ((hs.readLine hread).2.seek hseek).2

/-- Where the cursor stands the line is read that is stored there. -/
theorem ensures_readLine_at (start : Nat) :
    Ensures (fun s => s.cursor.position = start ∧ Intact bytes s.stage) (reading Cursor.readLine)
      (fun a s => (∀ text, a = some text → text = storedText bytes start) ∧
        Intact bytes s.stage)
      fun _ s => Intact bytes s.stage := by
  refine .reading_of (fun s a s' hs h => ?_) fun _ _ hs => hs.2
  rw [← hs.1]
  exact hs.2.readLine h

theorem preserves_lineAt (start : Nat) :
    Preserves bytes (lineAt start) fun a =>
      ∀ text, a = some text → text = storedText bytes start :=
  Ensures.bind (Ensures.reading_of (fun _ _ _ hs h => hs.seek h) fun _ _ hs => hs)
    fun _ => ensures_readLine_at start

theorem preserves_emit {e : Event} (he : e.message ≠ "malformed macro header") :
    Preserves bytes (emit e) fun _ => True := by
  refine .modify fun s hs => ⟨hs.fixed, hs.stored, fun e' he' => ?_, hs.chunks⟩
  rw [State.stage, Array.toList_push, List.mem_append, List.mem_singleton] at he'
  rcases he' with he' | rfl
  · exact hs.events e' he'
  · exact he

theorem preserves_position : Preserves bytes position fun _ => True :=
  .get_bind fun _ => .pure trivial

theorem preserves_nextLine : Preserves bytes nextLine fun _ => True :=
  .bind (.modify fun _ hs => ⟨hs.fixed, hs.stored, hs.events, hs.chunks⟩)
    fun _ _ => .get_bind fun _ => .pure trivial

theorem preserves_place {start length : Nat} {line : Int} {content : Content Chunk} :
    Preserves bytes (place start line length content) fun c => c.content = content :=
  .get_bind fun _ => .pure rfl

theorem preserves_checkInterrupt (settings : Settings) :
    Preserves bytes (checkInterrupt settings) fun _ => True :=
  .get_bind fun _ => .ite .throw (.ite .throw (.pure trivial))

/-! ### Dispatches -/

/-- What a dispatch has found is valid. -/
def Found (e : Option Chunk) : Prop := ∀ c, e = some c → c.Valid

theorem found_none : Found none := fun _ h => absurd h (by simp)

theorem found_some {c : Chunk} (h : c.Valid) : Found (some c) := fun _ hc => Option.some.inj hc ▸ h

theorem preserves_comment (start : Nat) (line : Int) :
    Preserves bytes (comment start line) Found := by
  refine (preserves_lineAt start).bind fun text _ => ?_
  cases text with
  | none => exact .pure found_none
  | some text =>
    refine .get_bind fun s => preserves_place.bind fun c hc => .pure (found_some ?_)
    exact Chunk.valid_of_definition?_eq_none (by rw [Chunk.definition?, hc])

theorem preserves_statement (settings : Settings) (start : Nat) (line : Int) :
    Preserves bytes (statement settings start line) Found := by
  refine (preserves_lineAt start).bind fun text _ => ?_
  cases text with
  | none => exact .pure found_none
  | some text =>
    refine preserves_position.bind fun stop _ => .get_bind fun s =>
      preserves_place.bind fun c hc => ?_
    have hvalid : c.Valid :=
      Chunk.valid_of_definition?_eq_none (by rw [Chunk.definition?, hc])
    cases Constant.ofChunk? c with
    | none => exact .pure (found_some hvalid)
    | some constant =>
      refine .bind (.modify fun s hs => ⟨hs.fixed, hs.stored, hs.events, ?_⟩)
        fun _ _ => .pure (found_some hvalid)
      rw [Catalog.declare]
      split <;> exact hs.chunks

variable {settings : Settings} {inner : Step (List (Option Chunk) × Bool)}

/-- A macro is only begun where the stored line is a header, and this line is parsed. -/
theorem preserves_macroDef (hinner : Preserves bytes inner fun taken => ∀ e ∈ taken.1, Found e)
    {start : Nat} (hkind : ChunkKind.ofHeader (storedText bytes start) = .macroDef) (line : Int) :
    Preserves bytes (macroDef settings inner start line) Found := by
  refine (preserves_lineAt start).bind fun text htext => ?_
  cases text with
  | none => exact .pure found_none
  | some text =>
    obtain rfl := htext text rfl
    obtain ⟨header, hheader⟩ :=
      Option.isSome_iff_exists.mp (MacroHeader.parse?_isSome settings.mode hkind)
    dsimp only
    rw [hheader]
    refine hinner.bind fun taken htaken => preserves_position.bind fun stop _ => ?_
    have hplaced : Preserves bytes
        (place start line (stop - start)
            (.macroDef ⟨header.name, header.parameters, taken.1, true⟩) >>=
          fun c => Pure.pure (some c)) Found :=
      preserves_place.bind fun c hc => .pure (found_some
        (Chunk.valid_of_macroDef hc rfl fun d hd => htaken (some d) hd d rfl))
    cases hended : taken.2 with
    | true => exact hplaced
    | false =>
      have hquiet : (Event.unterminated header.name line).message ≠ "malformed macro header" := by
        simp [Event.message]
      exact (preserves_emit hquiet).bind fun _ _ => hplaced

theorem preserves_report {start : Nat} {line : Int} {found : Option Chunk} (h : Found found) :
    Preserves bytes (report start line found) Found := by
  rw [report]
  cases hkept : found.filter (!·.isBlank) with
  | none => exact .pure found_none
  | some c =>
    have hc : found = some c := (Option.filter_eq_some_iff.mp hkept).1
    exact (preserves_emit (by simp [Event.message])).bind fun _ _ => .pure (found_some (h c hc))

theorem preserves_chunk (hinner : Preserves bytes inner fun taken => ∀ e ∈ taken.1, Found e) :
    Preserves bytes (chunk settings inner) Found := by
  have hposition : Ensures (fun s => Intact bytes s.stage) position
      (fun start s => s.cursor.position = start ∧ Intact bytes s.stage)
      fun _ s => Intact bytes s.stage :=
    ⟨fun hs h => by
      obtain ⟨rfl, rfl⟩ := EStateM.Result.ok.inj h
      exact ⟨rfl, hs⟩, fun _ h => absurd h (by simp [position_apply])⟩
  refine Ensures.bind hposition fun start => (ensures_readLine_at start).bind fun text =>
    .of_and fun htext => ?_
  cases text with
  | none => exact Preserves.pure found_none
  | some text =>
    obtain rfl := htext text rfl
    refine preserves_nextLine.bind fun line _ => ?_
    cases hkind : ChunkKind.ofHeader (storedText bytes start) with
    | comment => exact (preserves_comment start line).bind fun _ h => preserves_report h
    | macroDef => exact (preserves_macroDef hinner hkind line).bind fun _ h => preserves_report h
    | statement =>
      exact (preserves_statement settings start line).bind fun _ h => preserves_report h

/-! ### Loops -/

theorem preserves_body (settings : Settings) (fuel : Nat) {taken : List (Option Chunk)}
    (htaken : ∀ e ∈ taken, Found e) :
    Preserves bytes (body settings fuel taken) fun taken => ∀ e ∈ taken.1, Found e := by
  have hreverse : ∀ {entries : List (Option Chunk)} {ended : Bool}, (∀ e ∈ entries, Found e) →
      ∀ e ∈ (entries.reverse, ended).1, Found e := fun h e he => h e (List.mem_reverse.mp he)
  induction fuel generalizing taken with
  | zero => exact .pure (hreverse htaken)
  | succ fuel ih =>
    refine preserves_atEnd.bind fun finished _ => .ite (.pure (hreverse htaken)) ?_
    refine (preserves_checkInterrupt settings).bind fun _ _ =>
      preserves_peekLine.bind fun line _ => ?_
    cases line with
    | none => exact .pure (hreverse htaken)
    | some line =>
      -- The induction serves the nested body as well as the lines behind it.
      refine (preserves_chunk (ih fun _ he => absurd he List.not_mem_nil)).bind fun e he => ?_
      have hmore : ∀ e' ∈ e :: taken, Found e' := by
        intro e' he'
        rcases List.mem_cons.mp he' with rfl | he'
        · exact he
        · exact htaken e' he'
      exact .ite (.pure (hreverse hmore)) (ih hmore)

theorem preserves_scan (settings : Settings) (fuel : Nat) :
    Preserves bytes (scan settings fuel) fun _ => True := by
  induction fuel with
  | zero => exact .pure trivial
  | succ fuel ih =>
    refine preserves_atEnd.bind fun finished _ => .ite (.pure trivial) ?_
    refine (preserves_checkInterrupt settings).bind fun _ _ => ?_
    refine (preserves_chunk (preserves_body settings fuel fun _ he =>
      absurd he List.not_mem_nil)).bind fun e he => ?_
    cases e with
    | none => exact ih
    | some c =>
      refine .bind (.modify fun s hs => ⟨hs.fixed, hs.stored, hs.events, fun d hd => ?_⟩)
        fun _ _ => ih
      have hd : d ∈ ChunkSet.place c s.catalog.chunks.descending := List.mem_reverse.mp hd
      rcases ChunkSet.mem_place hd with rfl | hd
      · exact he d rfl
      · exact hs.chunks d (List.mem_reverse.mpr hd)

theorem preserves_run (settings : Settings) :
    Preserves bytes (run settings) fun _ => True :=
  .get_bind fun _ => (preserves_scan settings _).bind fun _ _ =>
    .get_bind fun _ => preserves_emit (by simp [Event.message])

end Import

/-! ### Headers and files -/

/-- A header can be read: it has a name and parameters, and where it declares parameters by
the legacy rule there is an offset at which it can be cut. -/
structure MacroHeader.Legible (mode : Mode) (line : Text) : Prop where
  header : ∃ header, parse? mode (Text.normalize line) = some header ∧
    (mode = .legacy → 2 < (Text.tokens (Text.normalize line)).length →
      ∃ n, CutAt (Text.normalize line) header.parameters n)

namespace Catalog

/-- What is taken for the header of a macro can be read, in both modes.  So no import of a
source that keeps its bytes reports a malformed header, and all its macros are valid. -/
theorem valid_of_fixed :
    (∀ line mode, ChunkKind.ofHeader line = .macroDef → MacroHeader.Legible mode line) ∧
      ∀ settings path (source : Source) start stopped, source.Fixed →
        (∀ e ∈ (ofSource settings path source start stopped).events,
          e.message ≠ "malformed macro header") ∧
        ∀ file, (ofSource settings path source start stopped).result = .ok file →
          ∀ c ∈ file.allChunks, ∀ m, c.definition? = some m → m.valid = true := by
  refine ⟨fun line mode hkind => ⟨?_⟩, fun settings path source start stopped hfixed => ?_⟩
  · obtain ⟨header, hheader⟩ :=
      Option.isSome_iff_exists.mp (MacroHeader.parse?_isSome mode hkind)
    refine ⟨header, hheader, fun hmode htokens => ?_⟩
    rw [hmode] at hheader
    exact MacroHeader.exists_cutAt hheader htokens
  · rw [ofSource, Cursor.open?]
    cases source.immovable with
    | some reason =>
      exact ⟨fun e he => absurd he List.not_mem_nil, fun _ h => absurd h (by simp)⟩
    | none =>
      have hinitial : Import.Intact source.bytes
          (Import.State.stage ⟨⟨source, start, 0, stopped⟩, -1, { path }, #[]⟩) :=
        ⟨hfixed, rfl, fun _ he => absurd he List.not_mem_nil,
          fun _ hc => absurd hc List.not_mem_nil⟩
      dsimp only
      cases hrun : Import.run settings ⟨⟨source, start, 0, stopped⟩, -1, { path }, #[]⟩ with
      | error e s =>
        have hintact := (Import.preserves_run settings).error hinitial hrun
        exact ⟨hintact.events, fun _ h => absurd h (by simp)⟩
      | ok u s =>
        obtain ⟨-, hintact⟩ := (Import.preserves_run settings).ok hinitial hrun
        refine ⟨hintact.events, fun file hfile c hc m hm => ?_⟩
        obtain rfl : s.catalog = file := Except.ok.inj hfile
        obtain ⟨d, hd, hcd⟩ := List.mem_flatMap.mp hc
        exact hintact.chunks d hd c hcd m hm

/-- A byte order mark, a name outside ASCII and a keyword in mixed case. -/
def markedHeaderSource : Bytes :=
  Utf8.encode
    ['\uFEFF', 'É', '\t', 'M', 'a', 'c', 'r', 'O', ' ', 'x', '\n', '\t', 'e', 'n', 'd', 'm', '\n']

theorem valid_of_fixed_markedHeaderSource :
    MacroHeader.Legible .legacy ['É', '\t', 'M', 'a', 'c', 'r', 'O', ' ', 'x'] ∧
      (∀ e ∈ (ofSource {} default (.ofBytes markedHeaderSource) 0 false).events,
        e.message ≠ "malformed macro header") ∧
      ∃ file, (ofSource {} default (.ofBytes markedHeaderSource) 0 false).result = .ok file ∧
        (∀ c ∈ file.allChunks, ∀ m, c.definition? = some m → m.valid = true) ∧
        file.macros.map (fun m => (m.name, m.parameters)) = [(['É'], [['x']])] := by
  obtain ⟨file, hfile⟩ := exists_ok_ofBytes default .legacy [] markedHeaderSource 0
  obtain ⟨hevents, hvalid⟩ := valid_of_fixed.2 {} default (.ofBytes markedHeaderSource) 0 false
    (Source.fixed_ofBytes _)
  refine ⟨valid_of_fixed.1 _ .legacy (by decide +kernel), hevents, file, hfile, hvalid file hfile,
    ?_⟩
  have hmacros : (ofSource {} default (.ofBytes markedHeaderSource) 0 false).result.toOption.map
      (fun file => file.macros.map fun m => (m.name, m.parameters)) = some [(['É'], [['x']])] := by
    decide +kernel
  have hsame : (ofSource {} default (.ofBytes markedHeaderSource) 0 false).result = .ok file :=
    hfile
  rw [hsame] at hmacros
  exact Option.some.inj hmacros

end Catalog

end AsmCatalog
