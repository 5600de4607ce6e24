/-
How a file falls into chunks depends neither on the includes nor on the mode.

Statements are recognized and names are looked up while the file is being cut into chunks,
and constants and macros are put where the next line can see them.  Still nothing of this
finds its way back into the cutting.  Two imports are run side by side here: as long as they
look the same through a view that hides what is recognized, every step keeps it so, and a
step that fails does so in both for the same reason.

Main definitions:
* `View` — what is left of forms, declared parameters and constants;
* `Chunk.through`, `Catalog.through` — a chunk and a file as they look through a view;
* `Import.Unseen` — settings whose difference a view hides;
* `Import.Agree` — two actions that look the same before look the same behind.

Main statements:
* `Import.agree_chunk`, `Import.agree_body`, `Import.agree_scan` — so do the loops of an
  import;
* `Catalog.through_ofSource` — imports with other modes or includes give the same file, or
  the same error, through a view.
-/
import AsmCatalog.Proofs.ChunkTree
import AsmCatalog.Proofs.HeaderKeyword
import AsmCatalog.Proofs.ReliableLine

namespace AsmCatalog

/-! ### Views -/

/-- Through `segments` one sees neither forms nor declared parameters nor constants, and
through `declarations` all of these but calls. -/
inductive View where
  | segments
  | declarations

namespace View

/-- What is left of a form. -/
def form : View → Form Chunk → Option (Form Chunk)
  | declarations, .equate e => some (.equate e)
  | _, _ => none

/-- What is left of declared parameters. -/
def parameters : View → List Text → List Text
  | segments, _ => []
  | declarations, parameters => parameters

/-- What is left of constants. -/
def constants : View → List Constant → List Constant
  | segments, _ => []
  | declarations, constants => constants

/-- A content through a view, where the entries of a body have been looked at already. -/
def content (v : View) (inner : List (Option Chunk)) : Content Chunk → Content Chunk
  | .comment text => .comment text
  | .statement s => .statement { s with form := s.form.bind v.form }
  | .macroDef m => .macroDef { m with parameters := v.parameters m.parameters, body := inner }

end View

variable (v : View)

namespace Chunk

/-- A chunk through a view, with all that is in it. -/
def through : Chunk → Chunk :=
  fold fun c inner => { c with content := v.content inner c.content }

theorem through_eq (c : Chunk) :
    c.through v = { c with
      content := v.content (c.body.map (Option.map (through v))) c.content } := by
  rw [through, fold_eq]

/-- Nothing is lost or moved inside a body, empty entries included. -/
theorem body_through (c : Chunk) : (c.through v).body = c.body.map (Option.map (through v)) := by
  rw [through_eq]
  obtain ⟨path, position, line, length, content⟩ := c
  cases content <;> rfl

@[simp] theorem key_through (c : Chunk) : (c.through v).key = c.key := by
  rw [through_eq]
  rfl

@[simp] theorem length_through (c : Chunk) : (c.through v).length = c.length := by
  rw [through_eq]

@[simp] theorem kind_through (c : Chunk) : (c.through v).kind = c.kind := by
  rw [through_eq]
  obtain ⟨path, position, line, length, content⟩ := c
  cases content <;> rfl

@[simp] theorem isBlank_through (c : Chunk) : (c.through v).isBlank = c.isBlank := by
  rw [through_eq]
  obtain ⟨path, position, line, length, content⟩ := c
  cases content <;> rfl

/-- A chunk declares the same constant as long as equates can be seen. -/
theorem ofChunk?_through (c : Chunk) :
    Constant.ofChunk? (c.through .declarations) = Constant.ofChunk? c := by
  rw [through_eq]
  obtain ⟨path, position, line, length, content⟩ := c
  cases content with
  | comment text => rfl
  | macroDef m => rfl
  | statement s =>
    obtain ⟨text, label, form⟩ := s
    rcases form with _ | ⟨_ | _⟩ <;> rfl

end Chunk

/-- The chunks of a set through a view. -/
def ChunkSet.through (s : ChunkSet) : ChunkSet :=
  ⟨s.descending.map (Chunk.through v), by
    rw [List.pairwise_map]
    simpa using s.sorted⟩

theorem ChunkSet.place_through (c : Chunk) (chunks : List Chunk) :
    (place c chunks).map (Chunk.through v) =
      place (c.through v) (chunks.map (Chunk.through v)) := by
  induction chunks with
  | nil => rfl
  | cons d rest ih =>
    rw [place, List.map_cons, place, Chunk.key_through, Chunk.key_through]
    cases compare c.key d.key with
    | gt => rfl
    | eq => rfl
    | lt => exact congrArg (d.through v :: ·) ih

namespace Catalog

/-- A file through a view. -/
def through (f : Catalog) : Catalog :=
  ⟨f.path, f.chunks.through v, v.constants f.constants⟩

theorem through_add (f : Catalog) (c : Chunk) :
    (f.add c).through v = (f.through v).add (c.through v) := by
  have hplace := ChunkSet.place_through v c f.chunks.descending
  simp only [through, add, ChunkSet.through, ChunkSet.insert, hplace]

theorem through_declare_segments (f : Catalog) (k : Constant) :
    (f.declare k).through .segments = f.through .segments := by
  rw [declare]
  split <;> rfl

theorem through_declare_declarations (f : Catalog) (k : Constant) :
    (f.declare k).through .declarations = (f.through .declarations).declare k := by
  have hsame : (f.through .declarations).constants = f.constants := rfl
  rw [declare, declare, hsame]
  by_cases hk : (f.constants.any fun d => d.key.same k.key) = true
  · rw [if_pos hk, if_pos hk]
  · rw [if_neg hk, if_neg hk]
    rfl

end Catalog

/-! ### What modes and macros make of a line -/

namespace MacroHeader

theorem parse?_eq_none {line : Text} (mode : Mode) (h : recognized line = false) :
    parse? mode (Text.normalize line) = none := by
  rw [← Option.not_isSome_iff_eq_none, isSome_parse?_iff, h]
  exact Bool.false_ne_true

/-- A line is a header in both modes or in neither, and then gives one name. -/
theorem parse?_cases (mode mode' : Mode) (line : Text) :
    (parse? mode (Text.normalize line) = none ∧ parse? mode' (Text.normalize line) = none) ∨
      ∃ header header', parse? mode (Text.normalize line) = some header ∧
        parse? mode' (Text.normalize line) = some header' ∧ header.name = header'.name := by
  cases hline : recognized line with
  | false => exact Or.inl ⟨parse?_eq_none mode hline, parse?_eq_none mode' hline⟩
  | true =>
    obtain ⟨header, h⟩ := Option.isSome_iff_exists.mp (parse?_isSome_of_recognized mode hline)
    obtain ⟨header', h'⟩ := Option.isSome_iff_exists.mp (parse?_isSome_of_recognized mode' hline)
    exact Or.inr ⟨header, header', h, h', (name_of_parse? h).trans (name_of_parse? h').symm⟩

end MacroHeader

/-- Where calls cannot be seen, a form does not depend on the macros that can be called. -/
theorem Form.parse?_bind_form (mode : Mode) (candidates candidates' : List (Macro Chunk))
    (code : Text) :
    (Form.parse? mode candidates code).bind (View.form .declarations) =
      (Form.parse? mode candidates' code).bind (View.form .declarations) := by
  rw [Form.parse?, Form.parse?]
  split
  · rfl
  · cases Equate.parse? mode code with
    | some e => rfl
    | none =>
      cases Invocation.parse? mode candidates code <;>
        cases Invocation.parse? mode candidates' code <;> rfl

namespace Import

/-- A view hides the difference between the settings. -/
structure Unseen (v : View) (x x' : Settings) : Prop where
  timeOver : x.timeOver = x'.timeOver
  mode : v = .declarations → x.mode = x'.mode

variable {v : View} {x x' : Settings}

theorem Unseen.form (h : Unseen v x x') (candidates candidates' : List (Macro Chunk))
    (text : Text) :
    (Statement.parse x.mode candidates text).form.bind v.form =
      (Statement.parse x'.mode candidates' text).form.bind v.form := by
  cases v with
  | segments =>
    cases (Statement.parse x.mode candidates text).form <;>
      cases (Statement.parse x'.mode candidates' text).form <;> rfl
  | declarations =>
    rw [h.mode rfl]
    exact Form.parse?_bind_form x'.mode candidates candidates' _

theorem Unseen.parameters (h : Unseen v x x') {line : Text} {header header' : MacroHeader}
    (hheader : MacroHeader.parse? x.mode line = some header)
    (hheader' : MacroHeader.parse? x'.mode line = some header') :
    v.parameters header.parameters = v.parameters header'.parameters := by
  cases v with
  | segments => rfl
  | declarations =>
    rw [h.mode rfl, hheader'] at hheader
    rw [Option.some.inj hheader]

/-! ### Two runs -/

/-- A state through a view. -/
def State.through (v : View) (s : State) : State := { s with catalog := s.catalog.through v }

/-- States that look the same differ in their chunks and constants only. -/
theorem State.eq_of_through {s s' : State} (h : s.through v = s'.through v) :
    s.cursor = s'.cursor ∧ s.line = s'.line ∧ s.catalog.path = s'.catalog.path := by
  obtain ⟨hcursor, hline, hcatalog, -⟩ := State.mk.inj h
  exact ⟨hcursor, hline, (Catalog.mk.inj hcatalog).1⟩

section Agree

variable {α β γ δ : Type}

/-- What one sees of a result, where `look` tells what one sees of its value. -/
def seen (v : View) (look : α → β) :
    EStateM.Result ImportError State α → Except ImportError β × State
  | .ok a s => (.ok (look a), s.through v)
  | .error e s => (.error e, s.through v)

/-- Where two states look the same, the results of two actions do. -/
def Agree (v : View) (look : α → β) (m m' : Step α) : Prop :=
  ∀ s s', s.through v = s'.through v → seen v look (m s) = seen v look (m' s')

namespace Agree

variable {look : α → β} {look' : γ → δ} {m m' : Step α}

theorem pure {a a' : α} (h : look a = look a') :
    Agree v look (Pure.pure a) (Pure.pure a') := by
  intro s s' hs
  rw [pure_apply, pure_apply, seen, seen, h, hs]

theorem bind {k k' : α → Step γ} (hm : Agree v look m m')
    (hk : ∀ a a', look a = look a' → Agree v look' (k a) (k' a')) :
    Agree v look' (m >>= k) (m' >>= k') := by
  intro s s' hs
  have h := hm s s' hs
  rw [bind_apply, bind_apply]
  cases hr : m s with
  | ok a s₁ =>
    cases hr' : m' s' with
    | ok a' s₁' =>
      rw [hr, hr'] at h
      obtain ⟨hlook, hs₁⟩ := Prod.mk.inj h
      exact hk a a' (Except.ok.inj hlook) s₁ s₁' hs₁
    | error e' s₁' =>
      rw [hr, hr'] at h
      exact absurd (Prod.mk.inj h).1 (by simp)
  | error e s₁ =>
    cases hr' : m' s' with
    | ok a' s₁' =>
      rw [hr, hr'] at h
      exact absurd (Prod.mk.inj h).1 (by simp)
    | error e' s₁' =>
      rw [hr, hr'] at h
      obtain ⟨he, hs₁⟩ := Prod.mk.inj h
      show seen v look' (.error e s₁) = seen v look' (.error e' s₁')
      rw [seen, seen, Except.error.inj he, hs₁]

/-- An action that looks at the state may do what it likes with what cannot be seen. -/
theorem get_bind {k k' : State → Step α}
    (hk : ∀ s s', s.through v = s'.through v → Agree v look (k s) (k' s')) :
    Agree v look (get >>= k) (get >>= k') :=
  fun s s' hs => hk s s' hs s s' hs

/-- What two changes of the state have in common is a change of what can be seen. -/
theorem modify {g g' : State → State} (h : State → State)
    (hg : ∀ s, (g s).through v = h (s.through v))
    (hg' : ∀ s, (g' s).through v = h (s.through v)) :
    Agree v id (modify g) (modify g') := by
  intro s s' hs
  rw [modify_apply, modify_apply, seen, seen, hg, hg', hs]

theorem reading (r : Reading α) : Agree v id (reading r) (reading r) := by
  intro s s' hs
  rw [Import.reading, Import.reading, (State.eq_of_through hs).1]
  cases r s'.cursor with
  | error reason => rw [seen, seen, hs]
  | ok found =>
    refine Prod.ext rfl ?_
    exact congrArg (fun s : State => { s with cursor := found.2 }) hs

theorem throw (e : ImportError) : Agree v look (throw e) (throw e) := by
  intro s s' hs
  rw [throw_apply, throw_apply, seen, seen, hs]

theorem ite {c : Prop} [Decidable c] {k k' : Step α} (hm : Agree v look m m')
    (hk : Agree v look k k') :
    Agree v look (if c then m else k) (if c then m' else k') := by
  split
  · exact hm
  · exact hk

end Agree

end Agree

/-! ### Actions -/

theorem agree_emit (e : Event) : Agree v id (emit e) (emit e) :=
  .modify (fun s => { s with events := s.events.push e }) (fun _ => rfl) fun _ => rfl

theorem agree_position : Agree v id position position :=
  .get_bind fun _ _ hs => .pure (congrArg Cursor.position (State.eq_of_through hs).1)

theorem agree_nextLine : Agree v id nextLine nextLine :=
  .bind (.modify (fun s => { s with line := s.line + 1 }) (fun _ => rfl) fun _ => rfl)
    fun _ _ _ => .get_bind fun _ _ hs => .pure (State.eq_of_through hs).2.1

theorem agree_lineAt (start : Nat) : Agree v id (lineAt start) (lineAt start) :=
  .bind (.reading _) fun _ _ _ => .reading _

/-- Either import is interrupted where the other one is. -/
theorem agree_checkInterrupt (h : Unseen v x x') :
    Agree v id (checkInterrupt x) (checkInterrupt x') := by
  refine .get_bind fun s s' hs => ?_
  obtain ⟨hcursor, hline, hpath⟩ := State.eq_of_through hs
  rw [hcursor, hpath, hline, h.timeOver]
  exact .ite (.throw _) (.ite (.throw _) (.pure rfl))

theorem agree_place {content content' : Content Chunk} {start length : Nat} {line : Int}
    (h : ∀ path, (⟨path, start, line, length, content⟩ : Chunk).through v =
      (⟨path, start, line, length, content'⟩ : Chunk).through v) :
    Agree v (Chunk.through v) (place start line length content)
      (place start line length content') := by
  refine .get_bind fun s s' hs => .pure ?_
  rw [(State.eq_of_through hs).2.2]
  exact h s'.catalog.path

theorem agree_comment (start : Nat) (line : Int) :
    Agree v (Option.map (Chunk.through v)) (comment start line) (comment start line) := by
  refine .bind (agree_lineAt start) fun text text' htext => ?_
  obtain rfl : text = text' := htext
  cases text with
  | none => exact .pure rfl
  | some text =>
    refine .get_bind fun s s' hs => ?_
    rw [(State.eq_of_through hs).1]
    exact .bind (agree_place fun _ => rfl) fun c c' hc => .pure (congrArg some hc)

/-- The constant of a chunk is declared, if it has one. -/
def State.declaring (c : Chunk) (s : State) : State :=
  match Constant.ofChunk? c with
  | none => s
  | some constant => { s with catalog := s.catalog.declare constant }

theorem State.through_declaring_segments (c : Chunk) (s : State) :
    (s.declaring c).through .segments = s.through .segments := by
  rw [declaring]
  split
  · rfl
  · rename_i constant _
    exact congrArg (fun f => { s with catalog := f })
      (s.catalog.through_declare_segments constant)

theorem State.through_declaring_declarations (c : Chunk) (s : State) :
    (s.declaring c).through .declarations =
      (s.through .declarations).declaring (c.through .declarations) := by
  rw [declaring, declaring, Chunk.ofChunk?_through]
  cases Constant.ofChunk? c with
  | none => rfl
  | some constant =>
    exact congrArg (fun f => { s with catalog := f })
      (s.catalog.through_declare_declarations constant)

/-- Chunks that look the same declare the same, as far as it can be seen. -/
theorem agree_declaring {c c' : Chunk} (hc : c.through v = c'.through v) :
    Agree v id (modify (State.declaring c)) (modify (State.declaring c')) := by
  cases v with
  | segments =>
    exact .modify id (State.through_declaring_segments c) (State.through_declaring_segments c')
  | declarations =>
    refine .modify (State.declaring (c.through .declarations))
      (State.through_declaring_declarations c) fun s => ?_
    rw [hc]
    exact State.through_declaring_declarations c' s

/-- To declare the constant of a chunk, if it has one, is one change of the state. -/
theorem declaring_bind (c : Chunk) :
    (do
      if let some constant := Constant.ofChunk? c then
        modify fun s : State => { s with catalog := s.catalog.declare constant }
      return some c : Step (Option Chunk)) =
        modify (State.declaring c) >>= fun _ => Pure.pure (some c) := by
  funext s
  rw [bind_apply, modify_apply, State.declaring]
  cases Constant.ofChunk? c <;> rfl

theorem agree_statement (h : Unseen v x x') (start : Nat) (line : Int) :
    Agree v (Option.map (Chunk.through v)) (statement x start line)
      (statement x' start line) := by
  refine .bind (agree_lineAt start) fun text text' htext => ?_
  obtain rfl : text = text' := htext
  cases text with
  | none => exact .pure rfl
  | some text =>
    refine .bind agree_position fun stop stop' hstop => ?_
    obtain rfl : stop = stop' := hstop
    refine .get_bind fun s s' _ => .bind (agree_place fun path => ?_) fun c c' hc => ?_
    · rw [Chunk.through_eq, Chunk.through_eq]
      simp only [View.content, h.form _ (visibleMacros (visibleCatalogs x'.includes s'.catalog))]
      rfl
    · -- In one mode the line may be an equate and in the other not, so the branches are not
      -- compared, but what they do to the state.
      have hagree : Agree v (Option.map (Chunk.through v))
          (modify (State.declaring c) >>= fun _ => Pure.pure (some c))
          (modify (State.declaring c') >>= fun _ => Pure.pure (some c')) :=
        .bind (agree_declaring hc) fun _ _ _ => .pure (congrArg some hc)
      rw [← declaring_bind, ← declaring_bind] at hagree
      exact hagree

/-- What one sees of a body. -/
def lookBody (v : View) (r : List (Option Chunk) × Bool) : List (Option Chunk) × Bool :=
  (r.1.map (Option.map (Chunk.through v)), r.2)

variable {inner inner' : Step (List (Option Chunk) × Bool)}

theorem agree_macroDef (h : Unseen v x x') (hinner : Agree v (lookBody v) inner inner')
    (start : Nat) (line : Int) :
    Agree v (Option.map (Chunk.through v)) (macroDef x inner start line)
      (macroDef x' inner' start line) := by
  refine .bind (agree_lineAt start) fun text text' htext => ?_
  obtain rfl : text = text' := htext
  cases text with
  | none => exact .pure rfl
  | some text =>
    dsimp only
    rcases MacroHeader.parse?_cases x.mode x'.mode text with
      ⟨hnone, hnone'⟩ | ⟨header, header', hheader, hheader', hname⟩
    · rw [hnone, hnone']
      refine .bind agree_position fun stop stop' hstop => ?_
      obtain rfl : stop = stop' := hstop
      exact .bind (agree_emit _) fun _ _ _ => .bind (agree_place fun _ => rfl)
        fun c c' hc => .pure (congrArg some hc)
    · -- Both are headers with one name, and the bodies are taken side by side.
      have hparameters := h.parameters hheader hheader'
      rw [hheader, hheader']
      refine .bind hinner fun taken taken' htaken => ?_
      obtain ⟨entries, ended⟩ := taken
      obtain ⟨entries', ended'⟩ := taken'
      obtain ⟨hentries, hended⟩ := Prod.mk.inj htaken
      obtain rfl : ended = ended' := hended
      have hentries : entries.map (Option.map (Chunk.through v)) =
          entries'.map (Option.map (Chunk.through v)) := hentries
      refine .bind agree_position fun stop stop' hstop => ?_
      obtain rfl : stop = stop' := hstop
      have hplaced : Agree v (Option.map (Chunk.through v))
          (place start line (stop - start)
              (.macroDef ⟨header.name, header.parameters, entries, true⟩) >>=
            fun c => Pure.pure (some c))
          (place start line (stop - start)
              (.macroDef ⟨header'.name, header'.parameters, entries', true⟩) >>=
            fun c => Pure.pure (some c)) := by
        refine .bind (agree_place fun path => ?_) fun c c' hc => .pure (congrArg some hc)
        rw [Chunk.through_eq, Chunk.through_eq]
        simp only [View.content, hname, hparameters]
        exact congrArg (fun entries => (⟨path, start, line, stop - start, .macroDef
          ⟨header'.name, v.parameters header'.parameters, entries, true⟩⟩ : Chunk)) hentries
      cases ended with
      | true => exact hplaced
      | false =>
        have hwarned : Agree v id (emit (.unterminated header.name line))
            (emit (.unterminated header'.name line)) := hname ▸ agree_emit _
        exact .bind hwarned fun _ _ _ => hplaced

/-- What is found is reported in the same way. -/
theorem agree_report {found found' : Option Chunk} {start : Nat} {line : Int}
    (hfound : found.map (Chunk.through v) = found'.map (Chunk.through v)) :
    Agree v (Option.map (Chunk.through v)) (report start line found)
      (report start line found') := by
  have hblank : ∀ e : Option Chunk, (e.filter (!·.isBlank)).map (Chunk.through v) =
      (e.map (Chunk.through v)).filter (!·.isBlank) := by
    intro e
    rw [Option.filter_map]
    congr 1
    refine congrArg (Option.filter · e) (funext fun c => ?_)
    rw [Function.comp_apply, Chunk.isBlank_through]
  have hkept := (hblank found).trans ((congrArg _ hfound).trans (hblank found').symm)
  rw [report, report]
  cases hc : found.filter (!·.isBlank) with
  | none =>
    rw [hc, Option.map_none] at hkept
    rw [Option.map_eq_none_iff.mp hkept.symm]
    exact .pure rfl
  | some c =>
    rw [hc, Option.map_some] at hkept
    obtain ⟨c', hc', hsame⟩ := Option.map_eq_some_iff.mp hkept.symm
    have hlength : c.length = c'.length := by
      rw [← c.length_through v, ← hsame, c'.length_through v]
    have hkind : c.kind = c'.kind := by
      rw [← c.kind_through v, ← hsame, c'.kind_through v]
    rw [hc']
    dsimp only
    rw [hlength, hkind]
    exact .bind (agree_emit _) fun _ _ _ => .pure (congrArg some hsame.symm)

theorem agree_chunk (h : Unseen v x x') (hinner : Agree v (lookBody v) inner inner') :
    Agree v (Option.map (Chunk.through v)) (chunk x inner) (chunk x' inner') := by
  refine .bind agree_position fun start start' hstart => ?_
  obtain rfl : start = start' := hstart
  refine .bind (.reading _) fun text text' htext => ?_
  obtain rfl : text = text' := htext
  cases ChunkKind.classify text with
  | error e => exact .pure rfl
  | ok kind =>
    refine .bind agree_nextLine fun line line' hline => ?_
    obtain rfl : line = line' := hline
    cases kind with
    | comment => exact .bind (agree_comment start line) fun _ _ => agree_report
    | macroDef => exact .bind (agree_macroDef h hinner start line) fun _ _ => agree_report
    | statement => exact .bind (agree_statement h start line) fun _ _ => agree_report

/-! ### Loops -/

theorem agree_body (h : Unseen v x x') (fuel : Nat) {taken taken' : List (Option Chunk)}
    (htaken : taken.map (Option.map (Chunk.through v)) =
      taken'.map (Option.map (Chunk.through v))) :
    Agree v (lookBody v) (body x fuel taken) (body x' fuel taken') := by
  have hreverse : ∀ {a b : List (Option Chunk)} (ended : Bool),
      a.map (Option.map (Chunk.through v)) = b.map (Option.map (Chunk.through v)) →
        lookBody v (a.reverse, ended) = lookBody v (b.reverse, ended) := by
    intro a b ended hab
    rw [lookBody, lookBody, List.map_reverse, List.map_reverse, hab]
  induction fuel generalizing taken taken' with
  | zero => exact .pure (hreverse false htaken)
  | succ fuel ih =>
    refine .bind (.reading _) fun atEnd atEnd' hend => ?_
    obtain rfl : atEnd = atEnd' := hend
    refine .ite (.pure (hreverse false htaken)) (.bind (agree_checkInterrupt h) fun _ _ _ => ?_)
    refine .bind (.reading _) fun line line' hline => ?_
    obtain rfl : line = line' := hline
    cases line with
    | none => exact .pure (hreverse false htaken)
    | some line =>
      -- The induction serves the nested body as well as the lines behind it.
      refine .bind (agree_chunk h (ih rfl)) fun e e' he => ?_
      have hmore : (e :: taken).map (Option.map (Chunk.through v)) =
          (e' :: taken').map (Option.map (Chunk.through v)) := by
        rw [List.map_cons, List.map_cons, he, htaken]
      exact .ite (.pure (hreverse true hmore)) (ih hmore)

theorem agree_scan (h : Unseen v x x') (fuel : Nat) : Agree v id (scan x fuel) (scan x' fuel) := by
  induction fuel with
  | zero => exact .pure rfl
  | succ fuel ih =>
    refine .bind (.reading _) fun atEnd atEnd' hend => ?_
    obtain rfl : atEnd = atEnd' := hend
    refine .ite (.pure rfl) (.bind (agree_checkInterrupt h) fun _ _ _ => ?_)
    refine .bind (agree_chunk h (agree_body h fuel rfl)) fun e e' he => ?_
    cases e with
    | none =>
      obtain rfl : e' = none := Option.map_eq_none_iff.mp he.symm
      exact ih
    | some c =>
      obtain ⟨c', rfl, hc⟩ := Option.map_eq_some_iff.mp he.symm
      refine .bind (.modify (fun s => { s with catalog := s.catalog.add (c.through v) })
        (fun s => ?_) fun s => ?_) fun _ _ _ => ih
      · exact congrArg (fun f => { s with catalog := f }) (s.catalog.through_add v c)
      · rw [← hc]
        exact congrArg (fun f => { s with catalog := f }) (s.catalog.through_add v c')

end Import

/-! ### Files -/

namespace Catalog

/-- What comes of an import comes of its scan. -/
theorem result_ofSource {settings : Import.Settings} {path : SourcePath} {source : Source}
    {start : Nat} {stopped : Bool} {cursor : Cursor}
    (hopen : Cursor.open? source start stopped = .ok cursor) :
    (ofSource settings path source start stopped).result =
      match Import.scan settings (cursor.source.capacity + 1) ⟨cursor, -1, { path }, #[]⟩ with
      | .ok _ s => .ok s.catalog
      | .error e _ => .error e := by
  rw [ofSource, hopen]
  dsimp only
  rw [Import.run, Import.bind_apply, Import.get_apply]
  dsimp only
  rw [Import.bind_apply]
  cases Import.scan settings (cursor.source.capacity + 1) ⟨cursor, -1, { path }, #[]⟩ <;> rfl

theorem through_ofSource_of_unseen {v : View} {x x' : Import.Settings}
    (h : Import.Unseen v x x') (path : SourcePath) (source : Source) (start : Nat)
    (stopped : Bool) :
    (ofSource x path source start stopped).result.map (through v) =
      (ofSource x' path source start stopped).result.map (through v) := by
  cases hopen : Cursor.open? source start stopped with
  | error reason => rw [ofSource, ofSource, hopen]
  | ok cursor =>
    have hscan := Import.agree_scan h (cursor.source.capacity + 1)
      ⟨cursor, -1, { path }, #[]⟩ ⟨cursor, -1, { path }, #[]⟩ rfl
    rw [result_ofSource hopen, result_ofSource hopen]
    cases hx : Import.scan x (cursor.source.capacity + 1) ⟨cursor, -1, { path }, #[]⟩ <;>
      cases hx' : Import.scan x' (cursor.source.capacity + 1) ⟨cursor, -1, { path }, #[]⟩ <;>
      rw [hx, hx'] at hscan
    · exact congrArg (fun s => Except.ok s.catalog) (Prod.mk.inj hscan).2
    · exact absurd (Prod.mk.inj hscan).1 (by simp)
    · exact absurd (Prod.mk.inj hscan).1 (by simp)
    · rw [Except.error.inj (Prod.mk.inj hscan).1]

/-- Imports of one source give the same file but for what is recognized, whatever their modes
and includes, and in one mode they differ at most in the calls.  One that fails does so in
every mode and with all includes. -/
theorem through_ofSource (path : SourcePath) (source : Source) (start : Nat)
    (stopped timeOver : Bool) (mode mode' : Mode) (includes includes' : List Catalog) :
    (ofSource { mode, includes, timeOver } path source start stopped).result.map
        (through .segments) =
      (ofSource { mode := mode', includes := includes', timeOver } path source start
        stopped).result.map (through .segments) ∧
    (ofSource { mode, includes, timeOver } path source start stopped).result.map
        (through .declarations) =
      (ofSource { mode, includes := includes', timeOver } path source start
        stopped).result.map (through .declarations) := by
  have hsegments : Import.Unseen .segments { mode, includes, timeOver }
      { mode := mode', includes := includes', timeOver } := ⟨rfl, fun h => by cases h⟩
  have hdeclarations : Import.Unseen .declarations { mode, includes, timeOver }
      { mode, includes := includes', timeOver } := ⟨rfl, fun _ => rfl⟩
  exact ⟨through_ofSource_of_unseen hsegments path source start stopped,
    through_ofSource_of_unseen hdeclarations path source start stopped⟩

end Catalog

end AsmCatalog
