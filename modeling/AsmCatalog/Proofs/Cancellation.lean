/-
Imports that are asked to stop.

A source asks the import to stop once a byte at some offset or above it has been handed out.
The import looks whether it has been asked when the first byte of a line has been touched and
before the line is read, once for every line, at whatever depth the line stands.  So it stops
before the first line that begins at this offset or above it.  That it looks away while a line
is read twice or three times makes no difference: all of this happens behind the check.

Main definitions:
* `Source.watched` — bytes that ask the import to stop;
* `Watch.Reached`, `Watch.Waits`, `Watch.Stops` — the places that an import comes to, when it
  has been asked at the latest, and where it stops;
* `Import.Noticed` — how such an import compares with one that nothing asks to stop.

Main statements:
* `Watch.ensures_chunk`, `Watch.ensures_body`, `Watch.ensures_scan` — no line that begins at
  the offset or above it is dispatched;
* `Catalog.noticed_of_watched` — this is how it compares.
-/
import AsmCatalog.Proofs.Ensures
import AsmCatalog.Proofs.Execution
import AsmCatalog.Proofs.LineCoverage
import AsmCatalog.Proofs.ReadFailure

namespace AsmCatalog

/-- Bytes that ask the import to stop once one at the offset `n` or above it has been handed
out. -/
def Source.watched (bytes : Bytes) (n : Nat) : Source := { bytes, stopFrom := some n }

/-! ### Where an import stops -/

/-- An import of a file from an offset on, and the offset from which on handing out a byte
asks it to stop. -/
structure Watch where
  path : SourcePath
  bytes : Bytes
  start : Nat
  limit : Nat

namespace Watch

open Import

variable (w : Watch)

/-- The source of the import. -/
def source : Source := .watched w.bytes w.limit

theorem settled : w.source.Settled := ⟨rfl, rfl⟩

/-- The offset behind the line at an offset. -/
def behind (p : Nat) : Nat := p + (w.source.lineAt p).length

/-- At this offset a line begins or the bytes end, and every line before it begins below the
limit. -/
def Reached (p : Nat) : Prop :=
  ∃ done later, physicalLines w.bytes w.start = done ++ later ∧ p = w.start + extent done ∧
    ∀ l ∈ done, l.position < w.limit

/-- The cursor stands at `p`, and the import can only have been asked to stop by a byte
before `q`. -/
structure Waits (p q : Nat) (s : State) : Prop where
  source : s.cursor.source = w.source
  path : s.catalog.path = w.path
  position : s.cursor.position = p
  stopped : s.cursor.stopped = true → w.limit < q

/-- The import is about to look at the next line. -/
def Ready (s : State) : Prop := ∃ p, w.Reached p ∧ w.Waits p p s

/-- The import stops with this error before a line that begins at the limit or above it. -/
def Stops (e : ImportError) (s : State) : Prop :=
  e = .cancelled w.path s.line ∧ w.Reached s.cursor.position ∧ w.limit ≤ s.cursor.position ∧
    s.cursor.position < w.bytes.length

variable {w : Watch} {p q r : Nat}

theorem Waits.ready {s : State} (h : w.Waits p p s) (hp : w.Reached p) : w.Ready s := ⟨p, hp, h⟩

theorem reached_start : w.Reached w.start :=
  ⟨[], physicalLines w.bytes w.start, rfl, rfl, fun _ hl => absurd hl List.not_mem_nil⟩

/-- Behind a line that begins below the limit the next place is reached. -/
theorem Reached.behind (h : w.Reached p) (hp : p < w.limit) : w.Reached (w.behind p) := by
  obtain ⟨done, later, hlines, rfl, hdone⟩ := h
  have hlaid : LaidOut w.bytes w.start 0 (done ++ later) := hlines ▸ laidOut_linesFrom ..
  obtain ⟨-, hlater⟩ := laidOut_append.mp hlaid
  cases later with
  | nil =>
    -- Behind the last line nothing is left, so the cursor stays where it is.
    have hend : w.bytes.length ≤ w.start + extent done := by
      have hle := length_le_extent_linesFrom w.bytes w.start 0
      rwa [← physicalLines, hlines, List.append_nil] at hle
    rw [Watch.behind, (lineAt_eq_nil_iff ..).mpr hend, List.length_nil, Nat.add_zero]
    exact ⟨done, [], hlines, rfl, hdone⟩
  | cons l rest =>
    have hbytes : w.source.lineAt (w.start + extent done) = l.bytes := by rw [hlater.2.1]; rfl
    refine ⟨done ++ [l], rest, by rw [hlines, List.append_assoc]; rfl, ?_, fun l' hl' => ?_⟩
    · rw [Watch.behind, hbytes, extent_append, extent_cons, extent_nil, Nat.add_zero,
        Nat.add_assoc]
    · rcases List.mem_append.mp hl' with hl' | hl'
      · exact hdone l' hl'
      · rw [List.mem_singleton.mp hl', hlater.first.1]
        exact hp

/-- Whoever is ready is so at some place. -/
theorem ensures_ready {α : Type} {m : Step α} {behind : α → State → Prop}
    (h : ∀ p, w.Reached p → Ensures (w.Waits p p) m behind w.Stops) :
    Ensures w.Ready m behind w.Stops where
  ok hs hm := by
    obtain ⟨p, hp, hs⟩ := hs
    exact (h p hp).ok hs hm
  error hs hm := by
    obtain ⟨p, hp, hs⟩ := hs
    exact (h p hp).error hs hm

/-! ### Steps of reading -/

section Reading

variable {s : State}

/-- A line is read, and a byte of it may ask the import to stop. -/
theorem Waits.readLine (h : w.Waits p (w.behind p) s) :
    ∃ text c, Cursor.readLine s.cursor = .ok (text, c) ∧ (text = none → w.behind p = p) ∧
      w.Waits (w.behind p) (w.behind p) { s with cursor := c } := by
  have hnone : w.source.failure? (w.source.lastTouched p) = none := rfl
  rw [Cursor.readLine, h.source, h.position, hnone]
  dsimp only
  cases hempty : (w.source.lineAt p).isEmpty with
  | true =>
    have hbehind : w.behind p = p := by
      rw [behind, List.isEmpty_iff.mp hempty, List.length_nil, Nat.add_zero]
    exact ⟨_, _, rfl, fun _ => hbehind, h.source, h.path, h.position.trans hbehind.symm,
      h.stopped⟩
  | false =>
    refine ⟨_, _, rfl, fun hnone => absurd hnone (by simp), h.source, h.path, rfl,
      fun hstopped => ?_⟩
    have hstopped : (s.cursor.stopped || s.cursor.source.stopsWithin s.cursor.position
        (w.source.lineAt p).length) = true := hstopped
    rw [h.source, h.position, Bool.or_eq_true] at hstopped
    rcases hstopped with hbefore | hnow
    · exact h.stopped hbefore
    · exact of_decide_eq_true (Bool.and_eq_true_iff.mp hnow).2

theorem Waits.seek (h : w.Waits p q s) (r : Nat) :
    ∃ c, Cursor.seek r s.cursor = .ok ((), c) ∧ w.Waits r q { s with cursor := c } := by
  rw [Cursor.seek, h.source, w.settled.movable]
  exact ⟨_, rfl, w.settled.moved r, h.path, rfl, h.stopped⟩

theorem Waits.peekLine (h : w.Waits p (w.behind p) s) :
    ∃ text c, Cursor.peekLine s.cursor = .ok (text, c) ∧ (text = none → w.behind p = p) ∧
      w.Waits p (w.behind p) { s with cursor := c } := by
  obtain ⟨text, c, hread, hnone, hc⟩ := h.readLine
  obtain ⟨c', hseek, hc'⟩ := hc.seek s.cursor.position
  have hseek : Cursor.seek s.cursor.position c = .ok ((), c') := hseek
  refine ⟨text, c', ?_, hnone, h.position ▸ hc'⟩
  rw [Cursor.peekLine, hread]
  dsimp only
  rw [hseek]

/-- The test for the end touches the next byte, if there is one. -/
theorem Waits.atEnd (h : w.Waits p p s) :
    ∃ finished c, Cursor.atEnd s.cursor = .ok (finished, c) ∧
      if finished then w.Waits p p { s with cursor := c }
      else p < w.bytes.length ∧ (c.stopped = false → p < w.limit) ∧
        w.Waits p (p + 1) { s with cursor := c } := by
  have hnone : w.source.failure? p = none := rfl
  have hstops (count : Nat) : w.source.stopsWithin p count =
      (decide (0 < count) && decide (w.limit < p + count)) := rfl
  rw [Cursor.atEnd, h.source, h.position, hnone]
  dsimp only
  rw [Cursor.handedOut, Cursor.rest, h.source, h.position, hstops]
  cases hrest : w.source.bytesFrom p with
  | nil =>
    refine ⟨_, _, rfl, ?_⟩
    rw [List.isEmpty_nil, if_pos rfl]
    refine ⟨rfl, h.path, rfl, fun hstopped => h.stopped ?_⟩
    simpa using hstopped
  | cons b rest =>
    have hlt : p < w.bytes.length := by
      by_contra hle
      have hnil : w.source.bytesFrom p = [] := List.drop_eq_nil_iff.mpr (Nat.le_of_not_lt hle)
      exact absurd (hnil.symm.trans hrest) (by simp)
    have hone : min 1 (b :: rest).length = 1 := Nat.min_eq_left (Nat.le_add_left ..)
    refine ⟨_, _, rfl, ?_⟩
    rw [List.isEmpty_cons, if_neg Bool.false_ne_true, hone]
    refine ⟨hlt, fun hrunning => ?_, rfl, h.path, rfl, fun hstopped => ?_⟩
    · have hlimit : ¬ w.limit < p + 1 := by
        have := (Bool.or_eq_false_iff.mp hrunning).2
        simpa using this
      omega
    · rcases (Bool.or_eq_true ..).mp hstopped with hbefore | hnow
      · exact Nat.lt_succ_of_lt (h.stopped hbefore)
      · simpa using hnow

end Reading

theorem ensures_readLine : Ensures (w.Waits p (w.behind p)) (reading Cursor.readLine)
    (fun _ => w.Waits (w.behind p) (w.behind p)) w.Stops := by
  refine .reading fun s hs => ?_
  obtain ⟨text, c, hread, -, hc⟩ := hs.readLine
  exact ⟨text, c, hread, hc⟩

theorem ensures_peekLine : Ensures (w.Waits p (w.behind p)) (reading Cursor.peekLine)
    (fun text s => (text = none → w.behind p = p) ∧ w.Waits p (w.behind p) s) w.Stops :=
  .reading fun _ hs => hs.peekLine

/-- A parser goes back to a line, reads it again, and stands behind it. -/
theorem ensures_lineAt : Ensures (w.Waits p (w.behind r)) (Import.lineAt r)
    (fun _ => w.Waits (w.behind r) (w.behind r)) w.Stops := by
  refine .bind (.reading fun s hs => ?_) fun _ => ensures_readLine
  obtain ⟨c, hseek, hc⟩ := hs.seek r
  exact ⟨(), c, hseek, hc⟩

/-! ### Actions that read nothing -/

/-- An action leaves the cursor and the path of the file alone, and does not fail. -/
def Quiet (w : Watch) {α : Type} (m : Step α) : Prop :=
  ∀ p q, Ensures (w.Waits p q) m (fun _ => w.Waits p q) w.Stops

namespace Quiet

variable {α β : Type} {m : Step α}

theorem pure (a : α) : w.Quiet (Pure.pure a) := fun _ _ => .pure fun _ hs => hs

theorem bind {k : α → Step β} (hm : w.Quiet m) (hk : ∀ a, w.Quiet (k a)) : w.Quiet (m >>= k) :=
  fun p q => (hm p q).bind fun a => hk a p q

theorem get_bind {k : State → Step β} (hk : ∀ s, w.Quiet (k s)) : w.Quiet (get >>= k) :=
  fun p q => .get_bind fun s => hk s p q

theorem modify {g : State → State} (hcursor : ∀ s, (g s).cursor = s.cursor)
    (hpath : ∀ s, (g s).catalog.path = s.catalog.path) : w.Quiet (modify g) := by
  refine fun p q => .modify fun s hs => ⟨?_, (hpath s).trans hs.path, ?_, ?_⟩
  · rw [hcursor]
    exact hs.source
  · rw [hcursor]
    exact hs.position
  · rw [hcursor]
    exact hs.stopped

/-- Behind such an action the import is as ready as before. -/
theorem ready (hm : w.Quiet m) : Ensures w.Ready m (fun _ => w.Ready) w.Stops :=
  ensures_ready fun p hp => (hm p p).mono (fun _ hs => hs) fun _ _ hs => hs.ready hp

theorem emit (e : Event) : w.Quiet (emit e) := .modify (fun _ => rfl) fun _ => rfl

theorem position : w.Quiet position := .get_bind fun _ => .pure _

theorem nextLine : w.Quiet nextLine :=
  .bind (.modify (fun _ => rfl) fun _ => rfl) fun _ => .get_bind fun _ => .pure _

theorem place (start : Nat) (line : Int) (length : Nat) (content : Content Chunk) :
    w.Quiet (place start line length content) :=
  .get_bind fun s => .pure (⟨s.catalog.path, start, line, length, content⟩ : Chunk)

theorem report (start : Nat) (line : Int) (found : Option Chunk) :
    w.Quiet (report start line found) := by
  rw [Import.report]
  cases found.filter (!·.isBlank) with
  | none => exact .pure none
  | some c => exact .bind (emit _) fun _ => .pure (some c)

end Quiet

/-! ### Dispatches -/

section Dispatches

variable {settings : Settings} {inner : Step (List (Option Chunk) × Bool)} {line : Int}

theorem ensures_comment (hp : w.Reached (w.behind p)) :
    Ensures (w.Waits q (w.behind p)) (Import.comment p line) (fun _ => w.Ready) w.Stops := by
  refine (ensures_lineAt.mono (fun _ hs => hs) fun _ _ hs => hs.ready hp).bind fun text => ?_
  cases text with
  | none => exact Quiet.ready (.pure none)
  | some text =>
    exact Quiet.ready (.get_bind fun s => .bind (.place _ _ _ _) fun c => .pure (some c))

theorem ensures_statement (hp : w.Reached (w.behind p)) :
    Ensures (w.Waits q (w.behind p)) (Import.statement settings p line) (fun _ => w.Ready)
      w.Stops := by
  refine (ensures_lineAt.mono (fun _ hs => hs) fun _ _ hs => hs.ready hp).bind fun text => ?_
  cases text with
  | none => exact Quiet.ready (.pure none)
  | some text =>
    refine Quiet.ready (.bind .position fun stop => .get_bind fun s =>
      .bind (.place _ _ _ _) fun c => ?_)
    cases Constant.ofChunk? c with
    | none => exact .pure (some c)
    | some constant =>
      exact .bind (.modify (fun _ => rfl) fun s => Stage.declare_path s.catalog constant)
        fun _ => .pure (some c)

theorem ensures_macroDef (hp : w.Reached (w.behind p))
    (hinner : Ensures w.Ready inner (fun _ => w.Ready) w.Stops) :
    Ensures (w.Waits q (w.behind p)) (Import.macroDef settings inner p line) (fun _ => w.Ready)
      w.Stops := by
  refine (ensures_lineAt.mono (fun _ hs => hs) fun _ _ hs => hs.ready hp).bind fun text => ?_
  cases text with
  | none => exact Quiet.ready (.pure none)
  | some text =>
    dsimp only
    cases MacroHeader.parse? settings.mode (Text.normalize text) with
    | none =>
      exact Quiet.ready (.bind .position fun stop => .bind (.emit _) fun _ =>
        .bind (.place _ _ _ _) fun c => .pure (some c))
    | some header =>
      refine hinner.bind fun taken => Quiet.ready (.bind .position fun stop => ?_)
      cases taken.2 with
      | true => exact .bind (.place _ _ _ _) fun c => .pure (some c)
      | false =>
        exact .bind (.emit _) fun _ => .bind (.place _ _ _ _) fun c => .pure (some c)

/-- A dispatch of a line that begins below the limit comes to the next place that the import
is ready at. -/
theorem ensures_chunk (hp : w.Reached p) (hlt : p < w.limit)
    (hinner : Ensures w.Ready inner (fun _ => w.Ready) w.Stops) :
    Ensures (w.Waits p (w.behind p)) (chunk settings inner) (fun _ => w.Ready) w.Stops := by
  have hbehind := hp.behind hlt
  have hposition : Ensures (w.Waits p (w.behind p)) position
      (fun start s => start = p ∧ w.Waits p (w.behind p) s) w.Stops :=
    ⟨fun hs h => by
      obtain ⟨rfl, rfl⟩ := EStateM.Result.ok.inj h
      exact ⟨hs.position, hs⟩, fun _ h => absurd h (by simp [position_apply])⟩
  refine hposition.bind fun start => .of_and fun hstart => ?_
  subst hstart
  refine ensures_readLine.bind fun text => ?_
  cases ChunkKind.classify text with
  | error e => exact .pure fun _ hs => hs.ready hbehind
  | ok kind =>
    refine (Quiet.nextLine _ _).bind fun line => ?_
    cases kind with
    | comment =>
      exact (ensures_comment hbehind).bind fun found => (Quiet.report _ _ found).ready
    | macroDef =>
      exact (ensures_macroDef hbehind hinner).bind fun found => (Quiet.report _ _ found).ready
    | statement =>
      exact (ensures_statement hbehind).bind fun found => (Quiet.report _ _ found).ready

end Dispatches

/-! ### Loops -/

section Loops

variable {settings : Settings} {α : Type}

/-- In time the check only looks whether the import has been asked to stop. -/
theorem checkInterrupt_eq (htime : settings.timeOver = false) (s : State) :
    checkInterrupt settings s =
      if s.cursor.stopped then .error (.cancelled s.catalog.path s.line) s else .ok () s := by
  rw [checkInterrupt, bind_apply, get_apply, htime]
  cases h : s.cursor.stopped with
  | true => simp only [h, if_true, throw_apply]
  | false => simp only [h, Bool.false_eq_true, if_false, pure_apply]

/-- The test for the end touches the first byte of a line.  If it is at the limit or above it,
the check behind the test stops the import, and otherwise nothing has asked it to stop. -/
theorem ensures_before_line (htime : settings.timeOver = false) {finish go : Step α}
    {behind : α → State → Prop} (hfinish : Ensures w.Ready finish behind w.Stops)
    (hgo : ∀ p, w.Reached p → p < w.limit →
      Ensures (w.Waits p (w.behind p)) go behind w.Stops) :
    Ensures w.Ready (reading Cursor.atEnd >>= fun finished => if finished then finish else do
      checkInterrupt settings; go) behind w.Stops := by
  -- Before the test only a byte before `p` can have asked, behind it the one at `p` as well.
  refine ensures_ready fun p hp => ?_
  have hend : Ensures (w.Waits p p) (reading Cursor.atEnd) (fun finished s =>
      if finished then w.Waits p p s
      else p < w.bytes.length ∧ (s.cursor.stopped = false → p < w.limit) ∧ w.Waits p (p + 1) s)
      w.Stops := .reading fun _ hs => hs.atEnd
  refine hend.bind fun finished => ?_
  cases finished with
  | true => exact hfinish.mono (fun _ hs => hs.ready hp) fun _ _ h => h
  | false =>
    refine .of_and fun hleft => ?_
    have hcheck : Ensures
        (fun s => (s.cursor.stopped = false → p < w.limit) ∧ w.Waits p (p + 1) s)
        (checkInterrupt settings) (fun _ s => p < w.limit ∧ w.Waits p (w.behind p) s)
        w.Stops := by
      constructor
      · intro s s' _ hs h
        rw [checkInterrupt_eq htime] at h
        split at h
        · exact absurd h (by simp)
        · obtain ⟨-, rfl⟩ := EStateM.Result.ok.inj h
          have hrunning := Bool.eq_false_iff.mpr ‹_›
          refine ⟨hs.1 hrunning, hs.2.source, hs.2.path, hs.2.position, fun hstopped => ?_⟩
          exact absurd (hrunning.symm.trans hstopped) (by simp)
      · intro s s' e hs h
        rw [checkInterrupt_eq htime] at h
        split at h
        · obtain ⟨rfl, rfl⟩ := EStateM.Result.error.inj h
          have hlimit := Nat.le_of_lt_succ (hs.2.stopped ‹_›)
          rw [Stops, hs.2.path, hs.2.position]
          exact ⟨rfl, hp, hlimit, hleft⟩
        · exact absurd h (by simp)
    exact hcheck.bind fun _ => .of_and fun hlt => hgo p hp hlt

theorem ensures_body (htime : settings.timeOver = false) (fuel : Nat)
    (taken : List (Option Chunk)) :
    Ensures w.Ready (body settings fuel taken) (fun _ => w.Ready) w.Stops := by
  induction fuel generalizing taken with
  | zero => exact .pure fun _ hs => hs
  | succ fuel ih =>
    refine ensures_before_line htime (.pure fun _ hs => hs) fun p hp hlt => ?_
    refine ensures_peekLine.bind fun line => .of_and fun hnone => ?_
    cases line with
    | none =>
      rw [hnone rfl]
      exact .pure fun _ hs => hs.ready hp
    | some line =>
      -- Nothing is checked between looking at the line and dispatching it.
      exact (ensures_chunk hp hlt (ih [])).bind fun entry => .ite (.pure fun _ hs => hs) (ih _)

theorem ensures_scan (htime : settings.timeOver = false) (fuel : Nat) :
    Ensures w.Ready (scan settings fuel) (fun _ => w.Ready) w.Stops := by
  induction fuel with
  | zero => exact .pure fun _ hs => hs
  | succ fuel ih =>
    refine ensures_before_line htime (.pure fun _ hs => hs) fun p hp hlt => ?_
    refine (ensures_chunk hp hlt (ensures_body htime fuel [])).bind fun entry => ?_
    cases entry with
    | none => exact ih
    | some c =>
      have hadd : w.Quiet (modify fun s => { s with catalog := s.catalog.add c }) :=
        .modify (fun _ => rfl) fun _ => rfl
      exact hadd.ready.bind fun _ => ih

end Loops

/-! ### Lines before and behind the stop -/

section Lines

variable {s : State}

/-- Who has come to the end while nothing asked to stop has left all lines below the limit. -/
theorem Ready.position_lt (h : w.Ready s) (hend : s.stage.AtEnd) {l : PhysicalLine}
    (hl : l ∈ physicalLines w.bytes w.start) : l.position < w.limit := by
  obtain ⟨p, ⟨done, later, hlines, rfl, hdone⟩, hs⟩ := h
  have hlaid : LaidOut w.bytes w.start 0 (done ++ later) := hlines ▸ laidOut_linesFrom ..
  rw [hlines] at hl
  rcases List.mem_append.mp hl with hl | hl
  · exact hdone l hl
  · -- A line behind these would begin before the end of the bytes.
    have hend : s.cursor.source.bytes.length ≤ s.cursor.position := hend
    have hbytes : w.source.bytes = w.bytes := rfl
    rw [hs.source, hs.position, hbytes] at hend
    obtain ⟨-, hlater⟩ := laidOut_append.mp hlaid
    have hfound := (hlater.found_of_mem hl).1
    have hbehind := (hlater.within hl).1
    omega

/-- The lines before a place that is reached begin below the limit, however they are told. -/
theorem Reached.position_lt {done later : List PhysicalLine}
    (h : w.Reached (w.start + extent done))
    (hlines : physicalLines w.bytes w.start = done ++ later) {l : PhysicalLine} (hl : l ∈ done) :
    l.position < w.limit := by
  obtain ⟨done', later', hlines', hextent, hdone'⟩ := h
  have hlaid : LaidOut w.bytes w.start 0 (physicalLines w.bytes w.start) := laidOut_linesFrom ..
  have hbefore := ((laidOut_append.mp (hlines ▸ hlaid)).1.within hl)
  have hmem : l ∈ done' ++ later' := hlines' ▸ hlines ▸ List.mem_append_left _ hl
  rcases List.mem_append.mp hmem with hl' | hl'
  · exact hdone' l hl'
  · have hbehind := ((laidOut_append.mp (hlines' ▸ hlaid)).2.within hl').1
    omega

/-- The last line that was begun is the last one before all that begin at the limit or above
it. -/
theorem Stops.line_eq {e : ImportError} (h : w.Stops e s) {events : List Event} {s₀ : State}
    (hstart : s₀.cursor.position = w.start)
    (hbroken : BrokenOff (physicalLines w.bytes w.start) events s₀ s e) :
    (∃ l ∈ physicalLines w.bytes w.start, w.limit ≤ l.position) ∧
      s.line =
        ((physicalLines w.bytes w.start).countP (·.position < w.limit) : Nat) - 1 := by
  obtain ⟨-, hreached, hle, hlt⟩ := h
  obtain ⟨done, later, -, hlines, hnumber, hposition, -⟩ := hbroken.before
  rw [hposition, hstart] at hreached hle hlt
  have hlaid : LaidOut w.bytes w.start 0 (done ++ later) := hlines ▸ laidOut_linesFrom ..
  obtain ⟨-, hlater⟩ := laidOut_append.mp hlaid
  cases later with
  | nil =>
    have hend := length_le_extent_linesFrom w.bytes w.start 0
    rw [← physicalLines, hlines, List.append_nil] at hend
    omega
  | cons l rest =>
    obtain ⟨hfirst, hcount, -⟩ := hlater.first
    have hbegun : s.line + 1 = l.number := hnumber l rfl
    have hbelow : done.countP (·.position < w.limit) = done.length :=
      List.countP_eq_length.mpr fun l' hl' => decide_eq_true (hreached.position_lt hlines hl')
    have habove : (l :: rest).countP (·.position < w.limit) = 0 := by
      refine List.countP_eq_zero.mpr fun l' hl' => ?_
      have hbehind := (hlater.within hl').1
      rw [decide_eq_true_eq]
      omega
    rw [hlines]
    refine ⟨⟨l, List.mem_append_right _ List.mem_cons_self, hfirst.symm ▸ hle⟩, ?_⟩
    rw [List.countP_append, hbelow, habove]
    omega

end Lines

end Watch

/-! ### Both imports -/

namespace Import

/-- An import of a file that is asked to stop by any byte at `n` or above it, and one that
nothing asks to stop and that gives `file`, where `offsets` tells where the lines begin,
whatever stands on them. -/
structure Noticed (asked whole : Outcome) (file : Catalog) (path : SourcePath)
    (offsets : List Nat) (n : Nat) : Prop where
  /-- Before the first line that begins at `n` or above it the import is cancelled, and has
  reported a beginning of what the other one reports. -/
  cancelled : (∃ p ∈ offsets, n ≤ p) →
    asked.result = .error (.cancelled path ((offsets.countP (· < n) : Nat) - 1)) ∧
      asked.events <+: whole.events
  /-- If there is no such line, both do the same. -/
  unnoticed : (∀ p ∈ offsets, p < n) → asked.result = .ok file ∧ asked.events = whole.events

end Import

namespace Catalog

/-- A request to stop is noticed before the next line. -/
theorem noticed_of_watched (mode : Mode) (includes : List Catalog) (path : SourcePath)
    (bytes : Bytes) (start n : Nat) :
    ∃ file,
      (ofSource { mode, includes } path (.ofBytes bytes) start false).result = .ok file ∧
      Import.Noticed (ofSource { mode, includes } path (.watched bytes n) start false)
        (ofSource { mode, includes } path (.ofBytes bytes) start false) file path
        ((physicalLines bytes start).map (·.position)) n := by
  let w : Watch := ⟨path, bytes, start, n⟩
  have hsettled : (Source.watched bytes n).Settled := w.settled
  obtain ⟨o, ho⟩ := exists_fileOutline (physicalLines bytes start)
  obtain ⟨file, hwhole, -⟩ := ofSource_ofBytes ⟨path, mode, includes⟩ bytes start ho
  have hwhole : ofSource { mode, includes } path (.ofBytes bytes) start false = _ := hwhole
  have hready : w.Ready (beginning path w.source start false) :=
    ⟨start, w.reached_start, rfl, rfl, rfl, fun hstopped => absurd hstopped (by simp [beginning])⟩
  have hscans : Import.Ensures w.Ready (Import.scan { mode, includes } (w.source.capacity + 1))
      (fun _ => w.Ready) w.Stops := Watch.ensures_scan rfl _
  refine ⟨file, congrArg (·.result) hwhole, ?_⟩
  rcases breaksOrEnds_beginning (f := ⟨path, mode, includes⟩) hsettled ho with
    ⟨e, s, hscan, hbroken⟩ | ⟨⟨s, hscan⟩, -⟩
  · -- The scan breaks off, and it can only have been asked to.
    have hstops := hscans.error hready hscan
    obtain ⟨⟨l, hl, hle⟩, hline⟩ := hstops.line_eq rfl hbroken
    have hasked := ofSource_of_scan_error hsettled.movable hscan
    refine ⟨fun _ => ⟨?_, ?_⟩, fun hall => ?_⟩
    · rw [List.countP_map]
      refine (congrArg (·.result) hasked).trans (congrArg Except.error ?_)
      rw [hstops.1, hline]
      rfl
    · rw [hwhole, show (ofSource { mode, includes } path (.watched bytes n) start false).events =
        s.events.toList from congrArg (·.events) hasked]
      exact (events_prefix_of_broken hbroken).trans (List.prefix_append ..)
    · exact absurd (hall l.position (List.mem_map_of_mem hl)) (Nat.not_lt_of_le hle)
  · -- The scan comes to the end, so every line began below `n`.
    have hready' := hscans.ok hready hscan
    obtain ⟨file', hok⟩ := exists_ok_of_scan hsettled.movable hscan
    have hsame := ofSource_of_fixed hsettled.fixed hok
    have hsame : ofSource { mode, includes } path (.ofBytes bytes) start false = _ := hsame
    obtain rfl : file' = file := Except.ok.inj (congrArg (·.result) (hsame.symm.trans hwhole))
    refine ⟨fun hstop => ?_, fun _ => ⟨hok, (congrArg (·.events) hsame).symm⟩⟩
    obtain ⟨p, hp, hle⟩ := hstop
    obtain ⟨l, hl, rfl⟩ := List.mem_map.mp hp
    obtain ⟨entries, hentries⟩ := Import.scans_of_scan hscan
      (Nat.le_trans (Nat.sub_le ..) (Nat.le_succ _))
    exact absurd (hready'.position_lt hentries.atEnd hl) (Nat.not_lt_of_le hle)

end Catalog

end AsmCatalog
