/-
Files whose lines are stored elsewhere.

The lines of a source may be stored at other offsets, and some of them with more bytes, while
their texts and numbers stay.  Everything that an import makes of them is then the same but
for offsets and lengths, at every depth and inside the macros that statements call.  Only
what comes from other files stays as it is.

Main definitions:
* `Transfer` — where things go, and how long they become;
* `Chunk.moved`, `Constant.moved`, `Event.moved` — what goes there;
* `Transfer.Takes` — a line is another one at its new place;
* `Catalog.MovedTo` — a file is another one at its new place;
* `FileContext.foreign` — the names of the macros of other files.

Main statements:
* `Outline.entries_moved`, `Outline.events_moved` — what moved lines make;
* `Outline.chunksBehind_moved` — so do the lines of a whole file;
* `Catalog.ofSource_moved` — the import of moved lines gives the moved file.
-/
import AsmCatalog.Proofs.Callee
import AsmCatalog.Proofs.ReliableImport

namespace AsmCatalog

/-- Where the things of a file go: their new offsets, by their offsets and the numbers of their
lines, and the new lengths of ranges of bytes.  A range is made of its parts before and after.
The macros of other files, told by their names, stay. -/
structure Transfer where
  place : Nat → Int → Nat
  span : Nat → Nat → Nat
  stays : Text → Bool
  span_add : ∀ position a b, span position (a + b) = span position a + span (position + a) b

/-! ### What is moved -/

section Moved

variable (t : Transfer)

mutual

/-- A chunk at its new place, with all that is in it.  A comment has its length without the
terminator, and keeps it. -/
def Chunk.moved : Chunk → Chunk
  | ⟨path, position, line, length, .comment text⟩ =>
    ⟨path, t.place position line, line, length, .comment text⟩
  | ⟨path, position, line, length, .statement ⟨text, label, form⟩⟩ =>
    ⟨path, t.place position line, line, t.span position length,
      .statement ⟨text, label, movedForm form⟩⟩
  | ⟨path, position, line, length, .macroDef m⟩ =>
    ⟨path, t.place position line, line, t.span position length, .macroDef (Macro.moved m)⟩

/-- A macro with its body at its new place. -/
def Macro.moved : Macro Chunk → Macro Chunk
  | ⟨name, parameters, body, valid⟩ => ⟨name, parameters, movedBody body, valid⟩

/-- A form that calls the macro at its new place, unless that is one of another file. -/
def movedForm : Option (Form Chunk) → Option (Form Chunk)
  | none => none
  | some (.equate e) => some (.equate e)
  | some (.invoke ⟨callee, arguments⟩) =>
    some (.invoke ⟨if t.stays callee.name then callee else Macro.moved callee, arguments⟩)

/-- The entries of a body at their new places, where empty entries stay empty. -/
def movedBody : List (Option Chunk) → List (Option Chunk)
  | [] => []
  | none :: later => none :: movedBody later
  | some c :: later => some c.moved :: movedBody later

end

/-- A constant at its new place. -/
def Constant.moved (c : Constant) : Constant :=
  { c with position := t.place c.position c.line, length := t.span c.position c.length }

/-- The event that is reported when everything is at its new place. -/
def Event.moved : Event → Event
  | .chunk line position length kind =>
    .chunk line (t.place position line)
      (if kind = .comment then length else t.span position length) kind
  | e => e

/-- The macro that is called at its new place, for one that is called. -/
def Transfer.callee (m : Macro Chunk) : Macro Chunk := if t.stays m.name then m else m.moved t

/-- The file `file'` is the file `file` at its new place. -/
structure Catalog.MovedTo (file file' : Catalog) : Prop where
  path : file'.path = file.path
  chunks : file'.chunks.toList = file.chunks.toList.map (Chunk.moved t)
  constants : file'.constants = file.constants.map (Constant.moved t)

/-- The places of the chunks of a file at any depth, and for each call the offsets of the chunks
in the body of its callee. -/
def Catalog.places (file : Catalog) : List (Nat × Int × Nat × List Nat) :=
  file.allChunks.map fun c => (c.position, c.line, c.length,
    ((c.statement?.bind (·.invocation?)).map fun i =>
      (present i.callee.body).map (·.position)).getD [])

/-- The line `l'` is the line `l` at its new place. -/
structure Transfer.Takes (l l' : PhysicalLine) : Prop where
  text : l'.text = l.text
  number : l'.number = l.number
  position : l'.position = t.place l.position l.number
  contentLength : l'.contentLength = l.contentLength
  length : l'.bytes.length = t.span l.position l.bytes.length

end Moved

variable {t : Transfer}

theorem Transfer.span_zero (position : Nat) : t.span position 0 = 0 := by
  have := t.span_add position 0 0
  rw [Nat.add_zero, Nat.add_zero] at this
  omega

theorem movedBody_eq (entries : List (Option Chunk)) :
    movedBody t entries = entries.map (Option.map (Chunk.moved t)) := by
  induction entries with
  | nil => rfl
  | cons e later ih => cases e <;> rw [movedBody, ih] <;> rfl

theorem Macro.moved_eq (m : Macro Chunk) :
    m.moved t = { m with body := m.body.map (Option.map (Chunk.moved t)) } := by
  obtain ⟨name, parameters, body, valid⟩ := m
  rw [moved, movedBody_eq]

/-- Names and parameters stay as they are. -/
theorem Transfer.sameHead_callee : Macro.SameHead t.callee where
  name m := by
    rw [callee, Macro.moved_eq]
    split <;> rfl
  parameters m := by
    rw [callee, Macro.moved_eq]
    split <;> rfl

theorem Transfer.callee_of_stays {m : Macro Chunk} (h : t.stays m.name = true) :
    t.callee m = m := if_pos h

theorem Transfer.callee_of_goes {m : Macro Chunk} (h : t.stays m.name = false) :
    t.callee m = m.moved t := if_neg (by rw [h]; exact Bool.false_ne_true)

namespace Chunk

theorem moved_statement (path : SourcePath) (position : Nat) (line : Int) (length : Nat)
    (s : Statement Chunk) :
    (⟨path, position, line, length, .statement s⟩ : Chunk).moved t =
      ⟨path, t.place position line, line, t.span position length,
        .statement (s.withCallee t.callee)⟩ := by
  obtain ⟨text, label, form⟩ := s
  rcases form with _ | ⟨_ | _⟩ <;> rfl

theorem definition?_moved (c : Chunk) :
    (c.moved t).definition? = c.definition?.map (Macro.moved t) := by
  obtain ⟨path, position, line, length, content⟩ := c
  cases content <;> rfl

/-- The event of a moved chunk is the moved event. -/
theorem event_moved (c : Chunk) : (c.moved t).event = c.event.moved t := by
  obtain ⟨path, position, line, length, content⟩ := c
  cases content <;> rfl

end Chunk

/-! ### What moved lines can call -/

namespace FileContext

/-- The names of the macros of other files that the lines of a file can call. -/
def foreign (f : FileContext) (name : Text) : Bool :=
  (visibleMacros (firstOfPaths [] f.includes)).any (·.name == name)

/-- What is found by its name among the macros that moved lines can call is what is found
among the others, at its new place.  A macro of the file itself is only found if none of
another file has a name like that, so it is not taken for one that stays. -/
theorem find?_callable_moved {f : FileContext} (hstays : t.stays = f.foreign)
    (likes : Text → Bool) (found : List Chunk) :
    (f.callable (found.map (Chunk.moved t))).find? (likes ·.name) =
      ((f.callable found).find? (likes ·.name)).map t.callee := by
  have hown : (found.map (Chunk.moved t)).filterMap Chunk.definition? =
      (found.filterMap Chunk.definition?).map (Macro.moved t) := by
    rw [List.filterMap_map, List.map_filterMap]
    exact List.filterMap_congr fun c _ => c.definition?_moved
  rw [callable, callable, hown, List.find?_append, List.find?_append]
  cases hother : (visibleMacros (firstOfPaths [] f.includes)).find? (likes ·.name) with
  | some m =>
    have hforeign : t.stays m.name = true := by
      rw [hstays, foreign, List.any_eq_true]
      exact ⟨m, List.mem_of_find?_eq_some hother, beq_self_eq_true _⟩
    rw [Option.some_or, Option.some_or, Option.map_some, Transfer.callee_of_stays hforeign]
  | none =>
    rw [Option.none_or, Option.none_or]
    split
    · rfl
    · have hname : ((likes ·.name) ∘ Macro.moved t : Macro Chunk → Bool) = (likes ·.name) :=
        funext fun m => by rw [Function.comp_apply, Macro.moved_eq]
      rw [List.find?_map, hname]
      refine Option.map_congr fun m hm => (Transfer.callee_of_goes ?_).symm
      rw [hstays, foreign, List.any_eq_false]
      intro k hk hsame
      refine List.find?_eq_none.mp hother k hk ?_
      have hlikes := List.find?_some hm
      rwa [eq_of_beq hsame]

/-- Names stand for the same macros as before, at their new places. -/
theorem resolveMacro?_moved {f : FileContext} (hstays : t.stays = f.foreign)
    (found : List Chunk) (name : Text) :
    resolveMacro? f.mode (f.callable (found.map (Chunk.moved t))) name =
      (resolveMacro? f.mode (f.callable found) name).map t.callee := by
  have hfind := fun likes => find?_callable_moved hstays likes found
  cases hmode : f.mode with
  | strict => exact hfind (Text.sameLetters · name)
  | legacy =>
    have hany (lowered : Text) : (f.callable (found.map (Chunk.moved t))).any (·.name == lowered) =
        (f.callable found).any (·.name == lowered) := by
      rw [← List.isSome_find?, ← List.isSome_find?, hfind (· == lowered), Option.isSome_map]
    rw [resolveMacro?.eq_1, resolveMacro?.eq_1]
    simp only [hany]
    split
    · exact hfind (· == name)
    · rfl

end FileContext

/-! ### What moved lines make -/

/-- Names stand for the same macros in both contexts, at their new places. -/
structure Transfer.Sees (t : Transfer) (x x' : LineContext) : Prop where
  path : x'.path = x.path
  mode : x'.mode = x.mode
  resolve : ∀ name, resolveMacro? x.mode x'.candidates name =
    (resolveMacro? x.mode x.candidates name).map t.callee

theorem FileContext.sees_behind {f : FileContext} (hstays : t.stays = f.foreign)
    (found : List Chunk) :
    t.Sees (f.behind found) (f.behind (found.map (Chunk.moved t))) :=
  ⟨rfl, rfl, resolveMacro?_moved hstays found⟩

namespace Transfer.Takes

variable {l l' : PhysicalLine} {x x' : LineContext}

theorem kind (h : t.Takes l l') : l'.kind = l.kind := congrArg ChunkKind.ofHeader h.text

theorem ends (h : t.Takes l l') : l'.ends = l.ends := congrArg endsMacro h.text

theorem isBlank (h : t.Takes l l') : l'.isBlank = l.isBlank := congrArg Text.isBlank h.text

theorem header? (h : t.Takes l l') (mode : Mode) : l'.header? mode = l.header? mode := by
  rw [PhysicalLine.header?, PhysicalLine.header?, h.text]

theorem equate? (h : t.Takes l l') (mode : Mode) : l'.equate? mode = l.equate? mode := by
  rw [PhysicalLine.equate?, PhysicalLine.equate?, h.text, h.kind]

theorem constant? (h : t.Takes l l') (path : SourcePath) (mode : Mode) :
    l'.constant? path mode = (l.constant? path mode).map (Constant.moved t) := by
  rw [PhysicalLine.constant?, PhysicalLine.constant?, h.equate?, h.position, h.number, h.length,
    Option.map_map]
  rfl

theorem entry (h : t.Takes l l') (hx : t.Sees x x') (hkind : l.kind ≠ .macroDef) :
    l'.entry x' = (l.entry x).map (Chunk.moved t) := by
  rcases PhysicalLine.kind_cases hkind with hkind | hkind
  · rw [PhysicalLine.entry_comment (h.kind.trans hkind), PhysicalLine.entry_comment hkind, hx.path,
      h.position, h.number, h.contentLength, h.text]
    rfl
  · rw [PhysicalLine.entry_statement (h.kind.trans hkind), PhysicalLine.entry_statement hkind,
      h.isBlank, hx.path, hx.mode, h.position, h.number, h.length, h.text,
      Statement.parse_withCallee Transfer.sameHead_callee hx.resolve]
    split
    · rfl
    · rw [Option.map_some, Chunk.moved_statement]

end Transfer.Takes

/-- The outline with other lines in the places of its own. -/
def Outline.mapLines (τ : PhysicalLine → PhysicalLine) : Outline → Outline
  | nil => nil
  | line l next => line (τ l) (next.mapLines τ)
  | definition h body ended next => definition (τ h) (body.mapLines τ) ended (next.mapLines τ)

/-- The lines of an outline stand one behind the other, and `τ` gives each of them at its new
place. -/
structure Transfer.Carries (t : Transfer) (τ : PhysicalLine → PhysicalLine) (bytes : Bytes)
    (position : Nat) (number : Int) (lines : List PhysicalLine) : Prop where
  laidOut : LaidOut bytes position number lines
  takes : ∀ l ∈ lines, t.Takes l (τ l)

section Lines

variable {τ : PhysicalLine → PhysicalLine} {bytes : Bytes} {position : Nat} {number : Int}
  {lines left : List PhysicalLine} {o : Outline} {ended : Bool}

namespace Transfer.Carries

theorem cons {l : PhysicalLine} (h : t.Carries τ bytes position number (l :: lines)) :
    t.Takes l (τ l) ∧ l.position = position ∧ t.Carries τ bytes l.stop (number + 1) lines := by
  obtain ⟨hposition, -, hlines⟩ := h.laidOut.first
  exact ⟨h.takes l List.mem_cons_self, hposition, hlines,
    fun l' hl' => h.takes l' (List.mem_cons_of_mem _ hl')⟩

theorem append {more : List PhysicalLine}
    (h : t.Carries τ bytes position number (lines ++ more)) :
    t.Carries τ bytes position number lines ∧
      t.Carries τ bytes (position + extent lines) (number + lines.length) more := by
  obtain ⟨hlines, hmore⟩ := laidOut_append.mp h.laidOut
  exact ⟨⟨hlines, fun l hl => h.takes l (List.mem_append_left _ hl)⟩,
    hmore, fun l hl => h.takes l (List.mem_append_right _ hl)⟩

/-- The new length of some lines is that of the range that they take up. -/
theorem extent_map (h : t.Carries τ bytes position number lines) :
    extent (lines.map τ) = t.span position (extent lines) := by
  induction lines generalizing position number with
  | nil => exact (t.span_zero position).symm
  | cons l rest ih =>
    obtain ⟨hl, rfl, hrest⟩ := h.cons
    rw [List.map_cons, extent_cons, extent_cons, ih hrest, hl.length, t.span_add]
    rfl

theorem constantsOf (h : t.Carries τ bytes position number lines) (path : SourcePath)
    (mode : Mode) :
    constantsOf path mode (lines.map τ) =
      (AsmCatalog.constantsOf path mode lines).map (Constant.moved t) := by
  rw [AsmCatalog.constantsOf, AsmCatalog.constantsOf, List.filterMap_map, List.map_filterMap]
  exact List.filterMap_congr fun l hl => (h.takes l hl).constant? path mode

end Transfer.Carries

/-- Lines at new places are grouped as before. -/
theorem BodyOutline.mapLines (h : BodyOutline lines o ended left)
    (hτ : ∀ l ∈ lines, t.Takes l (τ l)) :
    BodyOutline (lines.map τ) (o.mapLines τ) ended (left.map τ) := by
  induction h with
  | nil => exact .nil
  | lastLine hkind hends =>
    have hl := hτ _ List.mem_cons_self
    exact .lastLine (hl.kind ▸ hkind) (hl.ends.trans hends)
  | line hkind hends _ ih =>
    obtain ⟨hl, hrest⟩ := List.forall_mem_cons.mp hτ
    exact .line (hl.kind ▸ hkind) (hl.ends.trans hends) (ih hrest)
  | lastDefinition hkind hends _ ih =>
    obtain ⟨hl, hrest⟩ := List.forall_mem_cons.mp hτ
    exact .lastDefinition (hl.kind.trans hkind) (hl.ends.trans hends) (ih hrest)
  | definition hkind hends hbody _ ihb ihn =>
    obtain ⟨hl, hrest⟩ := List.forall_mem_cons.mp hτ
    refine .definition (hl.kind.trans hkind) (hl.ends.trans hends) (ihb hrest)
      (ihn fun l hbetween => hrest l ?_)
    rw [← hbody.lines_append]
    exact List.mem_append_right _ hbetween

theorem FileOutline.mapLines (h : FileOutline lines o) (hτ : ∀ l ∈ lines, t.Takes l (τ l)) :
    FileOutline (lines.map τ) (o.mapLines τ) := by
  induction h with
  | nil => exact .nil
  | line hkind _ ih =>
    obtain ⟨hl, hrest⟩ := List.forall_mem_cons.mp hτ
    exact .line (hl.kind ▸ hkind) (ih hrest)
  | definition hkind hbody _ ih =>
    obtain ⟨hl, hrest⟩ := List.forall_mem_cons.mp hτ
    refine .definition (hl.kind.trans hkind) (hbody.mapLines hrest) (ih fun l hleft => hrest l ?_)
    rw [← hbody.lines_append]
    exact List.mem_append_right _ hleft

namespace Outline

theorem lines_mapLines (o : Outline) : (o.mapLines τ).lines = o.lines.map τ := by
  induction o with
  | nil => rfl
  | line l next ih => rw [mapLines, lines, lines, ih, List.map_cons]
  | definition h body ended next ihb ihn =>
    rw [mapLines, lines, lines, ihb, ihn, List.map_cons, List.map_append]

variable {x x' : LineContext}

/-- A definition is moved with its body. -/
theorem definition?_moved (hx : t.Sees x x') {h : PhysicalLine} {body : Outline}
    (hh : t.Takes h (τ h)) (hbody : t.Carries τ bytes h.stop number body.lines)
    (hentries : (body.mapLines τ).entries x' =
      (body.entries x).map (Option.map (Chunk.moved t))) :
    definition? x' (τ h) (body.mapLines τ) = (definition? x h body).map (Chunk.moved t) := by
  rw [definition?, definition?, hh.header?, hx.mode, lines_mapLines, hbody.extent_map, hentries,
    Option.map_map]
  refine congrArg (Option.map · _) (funext fun header => ?_)
  rw [Function.comp_apply, PhysicalLine.definition, PhysicalLine.definition, hx.path, hh.position,
    hh.number, hh.length, Chunk.moved, Macro.moved, movedBody_eq, t.span_add]
  rfl

/-- The lines of a definition stand one behind the other, and so do those behind it. -/
theorem carries_definition {h : PhysicalLine} {body next : Outline}
    (hlines : t.Carries τ bytes position number (definition h body ended next).lines) :
    t.Takes h (τ h) ∧ t.Carries τ bytes h.stop (number + 1) body.lines ∧
      ∃ position' number', t.Carries τ bytes position' number' next.lines := by
  obtain ⟨hh, -, hrest⟩ := hlines.cons
  obtain ⟨hbody, hnext⟩ := hrest.append
  exact ⟨hh, hbody, _, _, hnext⟩

/-- The entries of moved lines are the moved entries. -/
theorem entries_moved (hx : t.Sees x x') (hsound : o.Sound)
    (hlines : t.Carries τ bytes position number o.lines) :
    (o.mapLines τ).entries x' = (o.entries x).map (Option.map (Chunk.moved t)) := by
  induction o generalizing position number with
  | nil => rfl
  | line l next ih =>
    obtain ⟨hl, -, hnext⟩ := hlines.cons
    rw [mapLines, entries_line, entries_line, hl.entry hx hsound.1, ih hsound.2 hnext]
    rfl
  | definition h body ended next ihb ihn =>
    obtain ⟨-, hsoundb, hsoundn⟩ := hsound
    obtain ⟨hh, hbody, _, _, hnext⟩ := carries_definition hlines
    rw [mapLines, entries_definition, entries_definition,
      definition?_moved hx hh hbody (ihb hsoundb hbody), ihn hsoundn hnext]
    rfl

/-- The events of moved chunks are the moved events. -/
theorem map_event_moved (e : Option Chunk) :
    ((e.map (Chunk.moved t)).map Chunk.event).toList =
      (e.map Chunk.event).toList.map (Event.moved t) := by
  cases e with
  | none => rfl
  | some c => exact congrArg ([·]) c.event_moved

/-- The events of moved lines are the moved events. -/
theorem events_moved (hx : t.Sees x x') (hsound : o.Sound)
    (hlines : t.Carries τ bytes position number o.lines) :
    (o.mapLines τ).events x' = (o.events x).map (Event.moved t) := by
  induction o generalizing position number with
  | nil => rfl
  | line l next ih =>
    obtain ⟨hl, -, hnext⟩ := hlines.cons
    rw [mapLines, events, events, hl.entry hx hsound.1, map_event_moved, ih hsound.2 hnext,
      List.map_append]
  | definition h body ended next ihb ihn =>
    obtain ⟨-, hsoundb, hsoundn⟩ := hsound
    obtain ⟨hh, hbody, _, _, hnext⟩ := carries_definition hlines
    have hopen : (((τ h).header? x'.mode).map fun header =>
          Event.unterminated header.name (τ h).number).toList =
        (((h.header? x.mode).map fun header =>
          Event.unterminated header.name h.number).toList).map (Event.moved t) := by
      rw [hh.header?, hx.mode, hh.number]
      cases h.header? x.mode <;> rfl
    rw [mapLines, events, events, ihb hsoundb hbody, ihn hsoundn hnext, hopen,
      definition?_moved hx hh hbody (entries_moved hx hsoundb hbody), map_event_moved,
      List.map_append, List.map_append, List.map_append]
    cases ended <;> rfl

variable {f : FileContext}

/-- A chunk that is found at its new place is found behind the others. -/
theorem append_toList_moved (found : List Chunk) (e : Option Chunk) :
    found.map (Chunk.moved t) ++ (e.map (Chunk.moved t)).toList =
      (found ++ e.toList).map (Chunk.moved t) := by
  rw [List.map_append, Option.toList_map]

/-- The top-level chunks of moved lines are the moved chunks. -/
theorem chunksBehind_moved (hstays : t.stays = f.foreign) (hsound : o.Sound)
    (hlines : t.Carries τ bytes position number o.lines) (found : List Chunk) :
    (o.mapLines τ).chunksBehind f (found.map (Chunk.moved t)) =
      (o.chunksBehind f found).map (Chunk.moved t) := by
  induction o generalizing position number found with
  | nil => rfl
  | line l next ih =>
    obtain ⟨hl, -, hnext⟩ := hlines.cons
    rw [mapLines, chunksBehind, chunksBehind,
      hl.entry (FileContext.sees_behind hstays found) hsound.1, append_toList_moved,
      ih hsound.2 hnext]
  | definition h body ended next ihb ihn =>
    obtain ⟨-, hsoundb, hsoundn⟩ := hsound
    obtain ⟨hh, hbody, _, _, hnext⟩ := carries_definition hlines
    have hx := FileContext.sees_behind hstays found
    rw [mapLines, chunksBehind, chunksBehind,
      definition?_moved hx hh hbody (entries_moved hx hsoundb hbody), append_toList_moved,
      ihn hsoundn hnext]

/-- The events of moved lines are the moved events. -/
theorem eventsBehind_moved (hstays : t.stays = f.foreign) (hsound : o.Sound)
    (hlines : t.Carries τ bytes position number o.lines) (found : List Chunk) :
    (o.mapLines τ).eventsBehind f (found.map (Chunk.moved t)) =
      (o.eventsBehind f found).map (Event.moved t) := by
  induction o generalizing position number found with
  | nil => rfl
  | line l next ih =>
    have hsplit : t.Carries τ bytes position number ((line l nil).lines ++ next.lines) := hlines
    obtain ⟨hfirst, hnext⟩ := hsplit.append
    have hx := FileContext.sees_behind hstays found
    have hevents := events_moved (o := line l nil) hx ⟨hsound.1, trivial⟩ hfirst
    rw [mapLines] at hevents
    rw [mapLines, eventsBehind, eventsBehind, (hfirst.takes l List.mem_cons_self).entry hx hsound.1,
      append_toList_moved, ih hsound.2 hnext, List.map_append, ← hevents]
    rfl
  | definition h body ended next _ ihn =>
    obtain ⟨hkind, hsoundb, hsoundn⟩ := hsound
    obtain ⟨hh, hbody, -⟩ := carries_definition hlines
    have hsplit : t.Carries τ bytes position number
        ((definition h body ended nil).lines ++ next.lines) := by
      rw [lines, lines, List.append_nil]
      exact hlines
    obtain ⟨hfirst, hnext⟩ := hsplit.append
    have hx := FileContext.sees_behind hstays found
    have hevents := events_moved (o := definition h body ended nil) hx ⟨hkind, hsoundb, trivial⟩
      hfirst
    rw [mapLines] at hevents
    rw [mapLines, eventsBehind, eventsBehind,
      definition?_moved hx hh hbody (entries_moved hx hsoundb hbody), append_toList_moved,
      ihn hsoundn hnext, List.map_append, ← hevents]
    rfl

end Outline

end Lines

/-! ### Imports of moved lines -/

/-- If the lines of one source are those of another one at their new places, the import of the
first gives the file of the second at its new place, and reports the same events for it. -/
theorem Catalog.ofSource_moved {f : FileContext} (hstays : t.stays = f.foreign)
    {bytes bytes' : Bytes} {start start' : Nat} {τ : PhysicalLine → PhysicalLine}
    (hlines : physicalLines bytes' start' = (physicalLines bytes start).map τ)
    (htakes : ∀ l ∈ physicalLines bytes start, t.Takes l (τ l)) :
    ∃ (file file' : Catalog) (events : List Event),
      ofSource f.settings f.path (.ofBytes bytes) start false = ⟨.ok file, events, false⟩ ∧
      ofSource f.settings f.path (.ofBytes bytes') start' false =
        ⟨.ok file', events.map (Event.moved t), false⟩ ∧
      file.MovedTo t file' := by
  obtain ⟨o, ho⟩ := exists_fileOutline (physicalLines bytes start)
  have ho' := ho.mapLines htakes
  rw [← hlines] at ho'
  obtain ⟨file, hfile, hpath, hchunks, hconstants⟩ := ofSource_ofBytes f bytes start ho
  obtain ⟨file', hfile', hpath', hchunks', hconstants'⟩ := ofSource_ofBytes f bytes' start' ho'
  have hcarries : t.Carries τ bytes start 0 (physicalLines bytes start) :=
    ⟨laidOut_linesFrom bytes start 0, htakes⟩
  have hcarries' : t.Carries τ bytes start 0 o.lines := ho.lines_eq ▸ hcarries
  have hmoved : file.MovedTo t file' := by
    refine ⟨hpath'.trans hpath.symm, ?_, ?_⟩
    · rw [hchunks', hchunks]
      exact Outline.chunksBehind_moved hstays ho.sound hcarries' []
    · rw [hconstants', hconstants, hlines, hcarries.constantsOf]
  refine ⟨file, file', _, hfile, ?_, hmoved⟩
  have hevents : (o.mapLines τ).eventsBehind f [] = _ :=
    Outline.eventsBehind_moved hstays ho.sound hcarries' []
  have hlength : ∀ s : ChunkSet, s.size = s.toList.length := fun s => List.length_reverse.symm
  have hsize : file'.chunks.size = file.chunks.size := by
    rw [hlength, hlength, hmoved.chunks, List.length_map]
  rw [hfile', hevents, hsize, hmoved.constants, List.length_map, List.map_append]
  rfl

end AsmCatalog
