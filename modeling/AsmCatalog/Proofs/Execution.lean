/-
The loops of an import without fuel.

The import bounds its loops by the number of bytes.  Here the loops are told as relations
that know no bound: a body goes on through a line with the end keyword or to the end of
the input, and a scan goes on to the end.  A run of the import that succeeds is a run of
these loops, so the bound is never what stops it, whatever its source does.

Main definitions:
* `Import.Gathers` — the lines of a body are dispatched;
* `Import.Dispatched` — one dispatch, with its body if it has one;
* `Import.Scans` — the lines of a source are dispatched;
* `Stage.Leads`, `Stage.Spans` — how far a dispatch goes, and where its chunks stand.

Main statements:
* `Import.Dispatched.advances` — a dispatch goes on unless nothing is left;
* `Import.gathers_of_body`, `Import.dispatched_of_chunk`, `Import.scans_of_scan` — what
  succeeds is a run without a bound;
* `Import.Gathers.spans` — the chunks of a body stand where its lines do;
* `Import.Gathers.forall_chunk` — what holds of all chunks at any depth.
-/
import AsmCatalog.Proofs.Dispatch
import AsmCatalog.Proofs.Tiling
import Mathlib.Data.List.Pairwise

namespace AsmCatalog

namespace Import

/-! ### Runs -/

/-- The lines of a body are dispatched from one stage to another and give these entries.
The first flag tells whether the last line that was looked at has the end keyword, and the
second one whether the body has come to such a line. -/
inductive Gathers (settings : Settings) :
    Bool → Stage → List (Option Chunk) → Bool → Stage → Prop where
  | ended (g : Stage) : Gathers settings true g [] true g
  | exhausted {g : Stage} (hend : g.AtEnd) : Gathers settings false g [] false g
  | plain {g g₁ g₂ : Stage} {e : Option Chunk} {later : List (Option Chunk)} {ended : Bool}
      (hleft : ¬ g.AtEnd) (hplain : Plain settings g.reopened e g₁)
      (hnext : Gathers settings g.here.ends g₁ later ended g₂) :
      Gathers settings false g (e :: later) ended g₂
  | definition {g g₁ g₂ : Stage} {header : MacroHeader} {inner later : List (Option Chunk)}
      {ended ended' : Bool} (hleft : ¬ g.AtEnd) (hopens : g.reopened.Opens settings.mode header)
      (hbody : Gathers settings false g.reopened.reopened.past inner ended g₁)
      (hnext : Gathers settings g.here.ends (g.reopened.closed header inner ended g₁) later
        ended' g₂) :
      Gathers settings false g (some (g.reopened.definition header inner g₁) :: later) ended' g₂

/-- A dispatch goes from one stage to another and gives an entry. -/
inductive Dispatched (settings : Settings) (g : Stage) : Option Chunk → Stage → Prop where
  | plain {g' : Stage} {e : Option Chunk} (hplain : Plain settings g e g') :
      Dispatched settings g e g'
  | definition {g' : Stage} {header : MacroHeader} {inner : List (Option Chunk)} {ended : Bool}
      (hopens : g.Opens settings.mode header)
      (hbody : Gathers settings false g.reopened.past inner ended g') :
      Dispatched settings g (some (g.definition header inner g')) (g.closed header inner ended g')

/-- A chunk has been added to the top-level chunks, if there is one. -/
def Stage.added (g : Stage) (e : Option Chunk) : Stage :=
  match e with
  | none => g
  | some c => { g with catalog := g.catalog.add c }

/-- The lines of a source are dispatched from one stage to the end, and give these
top-level entries. -/
inductive Scans (settings : Settings) : Stage → List (Option Chunk) → Stage → Prop where
  | exhausted {g : Stage} (hend : g.AtEnd) : Scans settings g [] g
  | dispatch {g g₁ g₂ : Stage} {e : Option Chunk} {later : List (Option Chunk)}
      (hleft : ¬ g.AtEnd) (hfirst : Dispatched settings g e g₁)
      (hnext : Scans settings (g₁.added e) later g₂) : Scans settings g (e :: later) g₂

/-! ### How far a dispatch goes -/

namespace Stage

/-- The stage `g'` comes behind `g` in an import: the cursor and the count do not go back,
the file is the same, and the bytes are replaced at most once. -/
structure Leads (g g' : Stage) : Prop where
  position : g.position ≤ g'.position
  line : g.line ≤ g'.line
  path : g'.catalog.path = g.catalog.path
  replacement : g'.source.replacement = g.source.replacement ∨ g'.source.replacement = none
  capacity : g'.source.capacity ≤ g.source.capacity

theorem Leads.refl (g : Stage) : g.Leads g :=
  ⟨Nat.le_refl _, Int.le_refl _, rfl, Or.inl rfl, Nat.le_refl _⟩

theorem Leads.trans {g₁ g₂ g₃ : Stage} (h : g₁.Leads g₂) (h' : g₂.Leads g₃) : g₁.Leads g₃ where
  position := Nat.le_trans h.position h'.position
  line := Int.le_trans h.line h'.line
  path := h'.path.trans h.path
  replacement := by
    rcases h'.replacement with hsame | hnone
    · rw [hsame]
      exact h.replacement
    · exact Or.inr hnone
  capacity := Nat.le_trans h'.capacity h.capacity

theorem moved_cases (source : Source) (offset : Nat) :
    source.moved offset = source ∨
      ∃ r, source.replacement = some r ∧ r.offset = offset ∧
        source.moved offset = { source with bytes := r.bytes, replacement := none } := by
  rw [Source.moved]
  cases hr : source.replacement with
  | none => exact Or.inl rfl
  | some r =>
    by_cases hoffset : r.offset = offset
    · exact Or.inr ⟨r, rfl, hoffset, if_pos hoffset⟩
    · exact Or.inl (if_neg hoffset)

theorem leads_reopened (g : Stage) : g.Leads g.reopened where
  position := Nat.le_refl _
  line := Int.le_refl _
  path := rfl
  replacement := by
    rcases moved_cases g.source g.position with h | ⟨r, -, -, h⟩
    · exact Or.inl (congrArg Source.replacement h)
    · exact Or.inr (congrArg Source.replacement h)
  capacity := by
    show (g.source.moved g.position).capacity ≤ _
    rcases moved_cases g.source g.position with h | ⟨r, hr, -, h⟩
    · rw [h]
    · rw [h, Source.capacity, Source.capacity, hr]
      exact Nat.max_le.mpr ⟨Nat.le_max_right .., Nat.zero_le _⟩

theorem leads_counted (g : Stage) : g.Leads g.counted :=
  ⟨Nat.le_refl _, Int.le_add_one (Int.le_refl _), rfl, Or.inl rfl, Nat.le_refl _⟩

theorem position_lt_past {g : Stage} (h : ¬ g.AtEnd) : g.position < g.past.position := by
  have hfound : g.here.FoundIn g.source.bytes := ⟨Nat.lt_of_not_le h, rfl⟩
  exact hfound.position_lt_stop

theorem leads_past (g : Stage) : g.Leads g.past where
  position := Nat.le_add_right ..
  line := Int.le_add_one (Int.le_refl _)
  path := rfl
  replacement := Or.inl rfl
  capacity := Nat.le_refl _

/-- The line at the cursor has been found again and read. -/
theorem leads_reread (g : Stage) : g.Leads g.reopened.past :=
  g.leads_reopened.trans g.reopened.leads_past

theorem leads_reported (g : Stage) (e : Option Chunk) : g.Leads (g.reported e) :=
  ⟨Nat.le_refl _, Int.le_refl _, rfl, Or.inl rfl, Nat.le_refl _⟩

theorem declare_path (f : Catalog) (c : Constant) : (f.declare c).path = f.path := by
  rw [Catalog.declare]
  split <;> rfl

theorem chunks_declaring (g : Stage) (c : Chunk) :
    (g.declaring c).catalog.chunks = g.catalog.chunks := by
  rw [declaring]
  split
  · rfl
  · rw [Catalog.declare]
    split <;> rfl

theorem leads_declaring (g : Stage) (c : Chunk) : g.Leads (g.declaring c) := by
  rw [declaring]
  split
  · exact .refl g
  · exact ⟨Nat.le_refl _, Int.le_refl _, declare_path _ _, Or.inl rfl, Nat.le_refl _⟩

/-- No byte is left, and none can come any more. -/
structure Over (g : Stage) : Prop where
  atEnd : g.AtEnd
  settled : g.source.replacement = none

/-- If nothing is left once the cursor has been moved to where it stands, the bytes were
replaced at that moment. -/
theorem over_reopened {g : Stage} (hleft : ¬ g.AtEnd) (hend : g.reopened.AtEnd) :
    g.reopened.Over := by
  refine ⟨hend, ?_⟩
  rcases moved_cases g.source g.position with h | ⟨r, -, -, h⟩
  · have hsame : g.reopened = g := by rw [reopened, h]
    exact absurd (hsame ▸ hend) hleft
  · exact congrArg Source.replacement h

/-- A bound on the bytes that can still be read. -/
def room (g : Stage) : Nat := g.source.capacity - g.position

theorem Over.room_eq {g : Stage} (h : g.Over) : g.room = 0 := by
  have hend : g.source.bytes.length ≤ g.position := h.atEnd
  rw [room, Source.capacity, h.settled]
  exact Nat.sub_eq_zero_of_le (Nat.max_le.mpr ⟨hend, Nat.zero_le _⟩)

theorem room_pos {g : Stage} (hleft : ¬ g.AtEnd) : 0 < g.room := by
  have hlt : g.position < g.source.bytes.length := Nat.lt_of_not_le hleft
  have hle : g.source.bytes.length ≤ g.source.capacity := Nat.le_max_left ..
  rw [room]
  omega

theorem Leads.room_le {g g' : Stage} (h : g.Leads g') : g'.room ≤ g.room := by
  have := h.position
  have := h.capacity
  rw [room, room]
  omega

/-- Whoever goes on, or has nothing left to read, leaves less room. -/
theorem Leads.room_le_of_advances {g g' : Stage} {fuel : Nat} (h : g.Leads g')
    (hleft : ¬ g.AtEnd) (hadvances : g.position < g'.position ∨ g'.Over)
    (hfuel : g.room ≤ fuel + 1) : g'.room ≤ fuel := by
  rcases hadvances with hlt | hover
  · have := room_pos hleft
    have := h.capacity
    rw [room] at *
    omega
  · rw [hover.room_eq]
    exact Nat.zero_le _

/-- The chunk stands between two stages. -/
structure Spans (g g' : Stage) (c : Chunk) : Prop where
  position : g.position ≤ c.position ∧ c.position < g'.position
  stop : c.stop ≤ g'.position
  line : g.line < c.line ∧ c.line ≤ g'.line

theorem Spans.mono {g₁ g₂ g₃ g₄ : Stage} {c : Chunk} (h : g₂.Spans g₃ c) (hfrom : g₁.Leads g₂)
    (hto : g₃.Leads g₄) : g₁.Spans g₄ c where
  position := ⟨Nat.le_trans hfrom.position h.position.1,
    Nat.lt_of_lt_of_le h.position.2 hto.position⟩
  stop := Nat.le_trans h.stop hto.position
  line := ⟨Int.lt_of_le_of_lt hfrom.line h.line.1, Int.le_trans h.line.2 hto.line⟩

/-- A chunk of the line at the cursor stands before the stage behind this line. -/
theorem spans_past {g : Stage} (hleft : ¬ g.AtEnd) {c : Chunk}
    (hposition : c.position = g.position) (hline : c.line = g.line + 1)
    (hlength : c.length ≤ g.here.bytes.length) : g.Spans g.past c where
  position := ⟨Nat.le_of_eq hposition.symm, hposition ▸ position_lt_past hleft⟩
  stop := by
    rw [Chunk.stop, hposition]
    exact Nat.add_le_add_left hlength _
  line := ⟨by omega, Int.le_of_eq hline⟩

end Stage

/-! ### Dispatches that take no body -/

namespace Plain

variable {settings : Settings} {g g' : Stage} {e : Option Chunk} {c : Chunk}

theorem leads (h : Plain settings g e g') : g.Leads g' := by
  have hpast := g.leads_reread
  cases h with
  | atEnd => exact .refl g
  | gone => exact g.leads_reopened.trans g.reopened.leads_counted
  | comment => exact hpast.trans (Stage.leads_reported _ _)
  | statement =>
    exact hpast.trans ((Stage.leads_declaring _ _).trans (Stage.leads_reported _ _))
  | blank => exact hpast.trans (Stage.leads_declaring _ _)
  | malformed => exact hpast.trans ⟨Nat.le_refl _, Int.le_refl _, rfl, Or.inl rfl, Nat.le_refl _⟩

/-- The top-level chunks are not touched. -/
theorem chunks_eq (h : Plain settings g e g') : g'.catalog.chunks = g.catalog.chunks := by
  cases h with
  | statement _ _ _ _ _ => exact Stage.chunks_declaring _ _
  | blank => exact Stage.chunks_declaring _ _
  | _ => rfl

theorem body_nil (h : Plain settings g (some c) g') : c.body = [] := by
  cases h with
  | comment _ _ _ hc => rw [hc]; rfl
  | statement _ _ _ hc _ => rw [hc]; rfl
  | malformed _ _ _ _ hc => rw [hc]; rfl

/-- A dispatch goes on over a line unless nothing is left. -/
theorem advances (h : Plain settings g e g') (hleft : ¬ g.AtEnd ∨ g.Over) :
    g.position < g'.position ∨ g'.Over := by
  cases h with
  | atEnd hend => exact Or.inr (hleft.resolve_left (not_not_intro hend))
  | gone hfirst hend =>
    have hover := Stage.over_reopened hfirst hend
    exact Or.inr ⟨hover.atEnd, hover.settled⟩
  | comment _ hagain => exact Or.inl (Stage.position_lt_past hagain)
  | statement _ hagain =>
    have hlt : g.position < g.reopened.past.position := Stage.position_lt_past hagain
    exact Or.inl (Nat.lt_of_lt_of_le hlt (Stage.leads_declaring _ _).position)
  | blank _ hagain =>
    have hlt : g.position < g.reopened.past.position := Stage.position_lt_past hagain
    exact Or.inl (Nat.lt_of_lt_of_le hlt (Stage.leads_declaring _ _).position)
  | malformed _ hagain => exact Or.inl (Stage.position_lt_past hagain)

theorem spans (h : Plain settings g (some c) g') : g.Spans g' c := by
  cases h with
  | comment _ hagain _ hc =>
    refine (Stage.spans_past hagain ?_ ?_ ?_).mono g.leads_reopened (Stage.leads_reported _ _)
    · rw [hc]; rfl
    · rw [hc]; rfl
    · rw [hc]; exact (isPrefix_withoutTerminator _).length_le
  | statement _ hagain _ hc =>
    refine (Stage.spans_past hagain ?_ ?_ ?_).mono g.leads_reopened
      ((Stage.leads_declaring _ _).trans (Stage.leads_reported _ _))
    · rw [hc]; rfl
    · rw [hc]; rfl
    · rw [hc]; exact Nat.le_refl _
  | malformed _ hagain _ _ hc =>
    refine (Stage.spans_past hagain ?_ ?_ ?_).mono g.leads_reopened
      ⟨Nat.le_refl _, Int.le_refl _, rfl, Or.inl rfl, Nat.le_refl _⟩
    · rw [hc]; rfl
    · rw [hc]; rfl
    · rw [hc]; exact Nat.le_refl _

end Plain

/-! ### Bodies -/

theorem Stage.leads_closed (g : Stage) (header : MacroHeader) (entries : List (Option Chunk))
    (ended : Bool) (g' : Stage) : g'.Leads (g.closed header entries ended g') :=
  ⟨Nat.le_refl _, Int.le_refl _, rfl, Or.inl rfl, Nat.le_refl _⟩

/-- A definition stands before the stage behind its body. -/
theorem Stage.Opens.spans_definition {g g' : Stage} {mode : Mode} {header : MacroHeader}
    (hopens : g.Opens mode header) (hbody : g.reopened.past.Leads g')
    (entries : List (Option Chunk)) : g.Spans g' (g.definition header entries g') := by
  have hpast : g.position < g.reopened.past.position := Stage.position_lt_past hopens.again
  have hlt : g.position < g'.position := Nat.lt_of_lt_of_le hpast hbody.position
  have hline : g.line + 1 ≤ g'.line := hbody.line
  refine ⟨⟨Nat.le_refl _, hlt⟩, ?_, ⟨Int.lt_add_one_of_le (Int.le_refl _), hline⟩⟩
  exact Nat.le_of_eq (Nat.add_sub_of_le (Nat.le_of_lt hlt))

namespace Gathers

variable {settings : Settings} {g g' : Stage} {entries : List (Option Chunk)}
  {closed ended : Bool} {c : Chunk}

theorem leads (h : Gathers settings closed g entries ended g') : g.Leads g' := by
  induction h with
  | ended g => exact .refl g
  | exhausted => exact .refl _
  | plain _ hplain _ ih => exact (Stage.leads_reopened _).trans (hplain.leads.trans ih)
  | @definition g g₁ g₂ header inner later ended ended' _ _ _ _ ihb ihn =>
    have hpast := g.leads_reopened.trans g.reopened.leads_reread
    exact hpast.trans (ihb.trans ((Stage.leads_closed ..).trans ihn))

theorem chunks_eq (h : Gathers settings closed g entries ended g') :
    g'.catalog.chunks = g.catalog.chunks := by
  induction h with
  | ended => rfl
  | exhausted => rfl
  | plain _ hplain _ ih => exact ih.trans hplain.chunks_eq
  | definition _ _ _ _ ihb ihn => exact ihn.trans ihb

/-- The chunks of a body, at any depth, stand between its stages. -/
theorem spans (h : Gathers settings closed g entries ended g')
    (hc : c ∈ (present entries).flatMap Chunk.all) : g.Spans g' c := by
  induction h with
  | ended => exact absurd hc List.not_mem_nil
  | exhausted => exact absurd hc List.not_mem_nil
  | @plain g g₁ g₂ e later ended _ hplain hnext ih =>
    rw [flatMap_present_cons, List.mem_append] at hc
    rcases hc with hc | hc
    · cases e with
      | none => exact absurd hc List.not_mem_nil
      | some d =>
        rw [Option.map_some, Option.getD_some, Chunk.all_of_body_nil hplain.body_nil,
          List.mem_singleton] at hc
        subst hc
        exact hplain.spans.mono (Stage.leads_reopened _) hnext.leads
    · exact (ih hc).mono ((Stage.leads_reopened _).trans hplain.leads) (.refl _)
  | @definition g g₁ g₂ header inner later ended ended' _ hopens hbody hnext ihb ihn =>
    have hpast := g.leads_reopened.trans g.reopened.leads_reread
    have hbehind : g₁.Leads g₂ := (Stage.leads_closed ..).trans hnext.leads
    rw [flatMap_present_cons, Option.map_some, Option.getD_some, List.mem_append,
      Chunk.all_eq, List.mem_cons] at hc
    rcases hc with (rfl | hc) | hc
    · exact (hopens.spans_definition hbody.leads inner).mono g.leads_reopened hbehind
    · exact (ihb hc).mono hpast hbehind
    · exact (ihn hc).mono (hpast.trans (hbody.leads.trans (Stage.leads_closed ..))) (.refl _)

end Gathers

/-! ### Dispatches -/

theorem Plain.path_eq {settings : Settings} {g g' : Stage} {c : Chunk}
    (h : Plain settings g (some c) g') : c.path = g.catalog.path := by
  cases h with
  | comment _ _ _ hc => rw [hc]; rfl
  | statement _ _ _ hc _ => rw [hc]; rfl
  | malformed _ _ _ _ hc => rw [hc]; rfl

namespace Dispatched

variable {settings : Settings} {g g' : Stage} {e : Option Chunk} {c d : Chunk}

theorem leads (h : Dispatched settings g e g') : g.Leads g' := by
  cases h with
  | plain hplain => exact hplain.leads
  | definition _ hbody =>
    have hpast := g.leads_reread
    exact hpast.trans (hbody.leads.trans (Stage.leads_closed ..))

theorem chunks_eq (h : Dispatched settings g e g') :
    g'.catalog.chunks = g.catalog.chunks := by
  cases h with
  | plain hplain => exact hplain.chunks_eq
  | definition _ hbody => exact hbody.chunks_eq

theorem path_eq (h : Dispatched settings g (some c) g') : c.path = g.catalog.path := by
  cases h with
  | plain hplain => exact hplain.path_eq
  | definition _ hbody => exact hbody.leads.path

/-- A dispatch goes on unless nothing is left. -/
theorem advances (h : Dispatched settings g e g') (hleft : ¬ g.AtEnd ∨ g.Over) :
    g.position < g'.position ∨ g'.Over := by
  cases h with
  | plain hplain => exact hplain.advances hleft
  | definition hopens hbody => exact Or.inl (hopens.spans_definition hbody.leads []).position.2

theorem spans (h : Dispatched settings g (some d) g') (hc : c ∈ d.all) : g.Spans g' c := by
  cases h with
  | plain hplain =>
    rw [Chunk.all_of_body_nil hplain.body_nil, List.mem_singleton] at hc
    rw [hc]
    exact hplain.spans
  | @definition g₁ header inner ended hopens hbody =>
    have hpast := g.leads_reread
    rw [Chunk.all_eq, List.mem_cons] at hc
    rcases hc with rfl | hc
    · exact (hopens.spans_definition hbody.leads inner).mono (.refl g) (Stage.leads_closed ..)
    · exact (hbody.spans hc).mono hpast (Stage.leads_closed ..)

end Dispatched

/-- Every dispatch from a stage with the property `P` gives a chunk with the property `Q`,
and leads to a stage with the property `P` again as long as no top-level chunk is added. -/
structure Carries (settings : Settings) (P : Stage → Prop) (Q : Chunk → Prop) : Prop where
  step {g g' : Stage} : P g → g.Leads g' → g'.catalog.chunks = g.catalog.chunks → P g'
  plain {g g' : Stage} {c : Chunk} : P g → Plain settings g (some c) g' → Q c
  definition {g g' : Stage} {header : MacroHeader} {inner : List (Option Chunk)} {ended : Bool} :
    P g → g.Opens settings.mode header →
      Gathers settings false g.reopened.past inner ended g' → Q (g.definition header inner g')

section Carries

variable {settings : Settings} {P : Stage → Prop} {Q : Chunk → Prop} {g g' : Stage} {c : Chunk}

theorem Carries.reopened (hcarries : Carries settings P Q) (hg : P g) : P g.reopened :=
  hcarries.step hg g.leads_reopened rfl

/-- What holds of the chunk of every dispatch holds of all chunks of a body, at any
depth. -/
theorem Gathers.forall_chunk {closed ended : Bool} {entries : List (Option Chunk)}
    (hcarries : Carries settings P Q) (h : Gathers settings closed g entries ended g')
    (hg : P g) (hc : c ∈ (present entries).flatMap Chunk.all) : Q c := by
  induction h with
  | ended => exact absurd hc List.not_mem_nil
  | exhausted => exact absurd hc List.not_mem_nil
  | @plain g g₁ g₂ e later ended _ hplain _ ih =>
    have hg' := hcarries.reopened hg
    rw [flatMap_present_cons, List.mem_append] at hc
    rcases hc with hc | hc
    · cases e with
      | none => exact absurd hc List.not_mem_nil
      | some d =>
        rw [Option.map_some, Option.getD_some, Chunk.all_of_body_nil hplain.body_nil,
          List.mem_singleton] at hc
        rw [hc]
        exact hcarries.plain hg' hplain
    · exact ih (hcarries.step hg' hplain.leads hplain.chunks_eq) hc
  | @definition g g₁ g₂ header inner later ended ended' _ hopens hbody _ ihb ihn =>
    have hg' := hcarries.reopened hg
    have hpast := hcarries.step (hcarries.reopened hg') (Stage.leads_past _) rfl
    have hbehind := hcarries.step (hcarries.step hpast hbody.leads hbody.chunks_eq)
      (Stage.leads_closed g.reopened header inner ended g₁) rfl
    rw [flatMap_present_cons, Option.map_some, Option.getD_some, List.mem_append,
      Chunk.all_eq, List.mem_cons] at hc
    rcases hc with (rfl | hc) | hc
    · exact hcarries.definition hg' hopens hbody
    · exact ihb hpast hc
    · exact ihn hbehind hc

theorem Dispatched.forall_chunk {d : Chunk} (hcarries : Carries settings P Q)
    (h : Dispatched settings g (some d) g') (hg : P g) (hc : c ∈ d.all) : Q c := by
  cases h with
  | plain hplain =>
    rw [Chunk.all_of_body_nil hplain.body_nil, List.mem_singleton] at hc
    rw [hc]
    exact hcarries.plain hg hplain
  | definition hopens hbody =>
    have hpast := hcarries.step (hcarries.reopened hg) (Stage.leads_past _) rfl
    rw [Chunk.all_eq, List.mem_cons] at hc
    rcases hc with rfl | hc
    · exact hcarries.definition hg hopens hbody
    · exact hbody.forall_chunk hcarries hpast hc

end Carries

/-! ### Scans -/

theorem Stage.leads_added (g : Stage) (e : Option Chunk) : g.Leads (g.added e) := by
  cases e with
  | none => exact .refl g
  | some c => exact ⟨Nat.le_refl _, Int.le_refl _, rfl, Or.inl rfl, Nat.le_refl _⟩

/-- The top-level chunks so far are of the file that is scanned, and lie before the cursor. -/
def Stage.Filed (g : Stage) : Prop :=
  ∀ d ∈ g.catalog.chunks.toList,
    d.path = g.catalog.path ∧ d.position < g.position ∧ d.stop ≤ g.position

/-- The chunk of a dispatch goes behind those that are filed, and is then filed itself. -/
theorem Dispatched.filed {settings : Settings} {g g' : Stage} {e : Option Chunk}
    (h : Dispatched settings g e g') (hg : g.Filed) :
    (g'.added e).catalog.chunks.toList = g.catalog.chunks.toList ++ e.toList ∧
      (g'.added e).Filed := by
  have hlist : (g'.added e).catalog.chunks.toList = g.catalog.chunks.toList ++ e.toList := by
    cases e with
    | none =>
      rw [Option.toList_none, List.append_nil]
      exact congrArg ChunkSet.toList h.chunks_eq
    | some c =>
      show (g'.catalog.chunks.insert c).toList = _
      rw [h.chunks_eq]
      refine toList_insert_of_before fun d hd => ?_
      obtain ⟨hpath, hposition, -⟩ := hg d hd
      exact ⟨hpath.trans h.path_eq.symm,
        Nat.lt_of_lt_of_le hposition (h.spans c.mem_all_self).position.1⟩
  refine ⟨hlist, fun d hd => ?_⟩
  have hleads := h.leads.trans (g'.leads_added e)
  rw [hlist, List.mem_append, Option.mem_toList] at hd
  rcases hd with hd | rfl
  · obtain ⟨hpath, hposition, hstop⟩ := hg d hd
    exact ⟨hpath.trans hleads.path.symm, Nat.lt_of_lt_of_le hposition hleads.position,
      Nat.le_trans hstop hleads.position⟩
  · have hd := (h.spans d.mem_all_self).mono (.refl g) (g'.leads_added (some d))
    exact ⟨h.path_eq.trans hleads.path.symm, hd.position.2, hd.stop⟩

namespace Scans

variable {settings : Settings} {g g' : Stage} {entries : List (Option Chunk)} {c : Chunk}

theorem leads (h : Scans settings g entries g') : g.Leads g' := by
  induction h with
  | exhausted => exact .refl _
  | dispatch _ hfirst _ ih => exact hfirst.leads.trans ((Stage.leads_added _ _).trans ih)

theorem atEnd (h : Scans settings g entries g') : g'.AtEnd := by
  induction h with
  | exhausted hend => exact hend
  | dispatch _ _ _ ih => exact ih

/-- The chunks of a scan, at any depth, stand between its stages. -/
theorem spans (h : Scans settings g entries g')
    (hc : c ∈ (present entries).flatMap Chunk.all) : g.Spans g' c := by
  induction h with
  | exhausted => exact absurd hc List.not_mem_nil
  | @dispatch g g₁ g₂ e later _ hfirst hnext ih =>
    have hbehind : g₁.Leads g₂ := (g₁.leads_added e).trans hnext.leads
    rw [flatMap_present_cons, List.mem_append] at hc
    rcases hc with hc | hc
    · cases e with
      | none => exact absurd hc List.not_mem_nil
      | some d => exact (hfirst.spans hc).mono (.refl g) hbehind
    · exact (ih hc).mono (hfirst.leads.trans (g₁.leads_added e)) (.refl _)

/-- What holds of the chunk of every dispatch holds of all chunks of a scan. -/
theorem forall_chunk {P : Stage → Prop} {Q : Chunk → Prop}
    (hcarries : Carries settings P Q)
    (hadded : ∀ {g : Stage} {e : Option Chunk}, P g → P (g.added e))
    (h : Scans settings g entries g') (hg : P g)
    (hc : c ∈ (present entries).flatMap Chunk.all) : Q c := by
  induction h with
  | exhausted => exact absurd hc List.not_mem_nil
  | @dispatch g g₁ g₂ e later _ hfirst _ ih =>
    have hbehind := hcarries.step hg hfirst.leads hfirst.chunks_eq
    rw [flatMap_present_cons, List.mem_append] at hc
    rcases hc with hc | hc
    · cases e with
      | none => exact absurd hc List.not_mem_nil
      | some d => exact hfirst.forall_chunk hcarries hg hc
    · exact ih (hadded hbehind) hc

/-- The top-level chunks stand one behind the other, with all that is inside them. -/
theorem ordered (h : Scans settings g entries g') :
    (present entries).Pairwise Chunk.Precedes := by
  induction h with
  | exhausted => exact .nil
  | @dispatch g g₁ g₂ e later _ hfirst hnext ih =>
    cases e with
    | none => exact ih
    | some a =>
      rw [present_some, List.pairwise_cons]
      refine ⟨fun b hb c hc d hd => ?_, ih⟩
      have hbefore := hfirst.spans hc
      have hbehind := (hnext.spans (List.mem_flatMap.mpr ⟨b, hb, hd⟩)).mono
        (g₁.leads_added _) (.refl _)
      exact ⟨Nat.le_trans hbefore.stop hbehind.position.1,
        Nat.lt_of_lt_of_le hbefore.position.2 hbehind.position.1,
        Int.lt_of_le_of_lt hbefore.line.2 hbehind.line.1⟩

/-- Of two top-level chunks one comes before the other. -/
theorem precedes_or (h : Scans settings g entries g') {a b : Chunk} (ha : a ∈ present entries)
    (hb : b ∈ present entries) (hne : a ≠ b) : a.Precedes b ∨ b.Precedes a := by
  have : Std.Symm fun a b : Chunk => a.Precedes b ∨ b.Precedes a := ⟨fun _ _ hor => hor.symm⟩
  have hpairs : (present entries).Pairwise fun a b => a.Precedes b ∨ b.Precedes a :=
    h.ordered.imp Or.inl
  exact hpairs.forall ha hb hne

/-- The chunks that a scan gives go behind those that were there. -/
theorem toList_chunks (h : Scans settings g entries g') (hg : g.Filed) :
    g'.catalog.chunks.toList = g.catalog.chunks.toList ++ present entries := by
  induction h with
  | exhausted => exact (List.append_nil _).symm
  | @dispatch g g₁ g₂ e later _ hfirst _ ih =>
    obtain ⟨hlist, hfiled⟩ := hfirst.filed hg
    rw [ih hfiled, hlist, List.append_assoc]
    cases e <;> rfl

end Scans

/-! ### Runs of the import -/

section Runs

variable {settings : Settings} {s s' : State}

/-- A body looks at a line before it dispatches it, which moves the cursor to where it
stands. -/
theorem body_eq_ok {fuel : Nat} {taken : List (Option Chunk)}
    {r : List (Option Chunk) × Bool} (h : body settings (fuel + 1) taken s = .ok r s') :
    (s.stage.AtEnd ∧ r = (taken.reverse, false) ∧ s'.stage = s.stage) ∨
      (¬ s.stage.AtEnd ∧ ∃ e s₁ s₂, s₁.stage = s.stage.reopened ∧
        chunk settings (body settings fuel []) s₁ = .ok e s₂ ∧
        (if s.stage.here.ends then pure ((e :: taken).reverse, true)
          else body settings fuel (e :: taken)) s₂ = .ok r s') := by
  rw [body] at h
  obtain ⟨finished, s₀, hend, h⟩ := bind_eq_ok.mp h
  obtain ⟨hfinished, hs₀⟩ := atEnd_cases hend
  cases finished with
  | true =>
    obtain ⟨rfl, rfl⟩ := pure_eq_ok.mp h
    exact Or.inl ⟨hfinished.mp rfl, rfl, hs₀⟩
  | false =>
    have hleft : ¬ s.stage.AtEnd := fun hend => absurd (hfinished.mpr hend) (by simp)
    obtain ⟨u, s₁, hcheck, h⟩ := bind_eq_ok.mp h
    rw [checkInterrupt_ok hcheck] at h
    obtain ⟨text, s₂, hpeek, h⟩ := bind_eq_ok.mp h
    obtain ⟨rfl, hs₂⟩ := peekLine_cases hpeek (by rw [hs₀]; exact hleft)
    obtain ⟨e, s₃, hchunk, h⟩ := bind_eq_ok.mp h
    rw [hs₀] at hs₂ h
    exact Or.inr ⟨hleft, e, s₂, s₃, hs₂, hchunk, h⟩

/-- When the cursor has been moved to a line, the line is still there or nothing comes any
more. -/
theorem Stage.reopened_left {g : Stage} (hleft : ¬ g.AtEnd) :
    ¬ g.reopened.AtEnd ∨ g.reopened.Over := by
  by_cases hend : g.reopened.AtEnd
  · exact Or.inr (Stage.over_reopened hleft hend)
  · exact Or.inl hend

/-- The bound of a body is never what ends it. -/
theorem gathers_of_body {fuel : Nat} {taken entries : List (Option Chunk)} {ended : Bool}
    (h : body settings fuel taken s = .ok (entries, ended) s') (hfuel : s.stage.room ≤ fuel) :
    ∃ later, entries = taken.reverse ++ later ∧
      Gathers settings false s.stage later ended s'.stage := by
  induction fuel generalizing taken entries ended s s' with
  | zero =>
    obtain ⟨hentries, rfl⟩ := pure_eq_ok.mp h
    obtain ⟨rfl, rfl⟩ := Prod.mk.inj hentries
    have hend : s.stage.AtEnd := by
      by_contra hleft
      exact absurd (Stage.room_pos hleft) (Nat.not_lt_of_le hfuel)
    exact ⟨[], (List.append_nil _).symm, .exhausted hend⟩
  | succ fuel ih =>
    rcases body_eq_ok h with ⟨hend, hentries, hs'⟩ | ⟨hleft, e, s₁, s₂, hs₁, hchunk, hrest⟩
    · obtain ⟨rfl, rfl⟩ := Prod.mk.inj hentries
      rw [hs']
      exact ⟨[], (List.append_nil _).symm, .exhausted hend⟩
    -- What comes behind the line is gathered onto the entries that were taken, in one way
    -- for every dispatch that leaves less room.
    have hnext (hroom : s₂.stage.room ≤ fuel) : ∃ later, entries = taken.reverse ++ e :: later ∧
        Gathers settings s.stage.here.ends s₂.stage later ended s'.stage := by
      cases hends : s.stage.here.ends with
      | true =>
        rw [hends, if_pos rfl] at hrest
        obtain ⟨hentries, rfl⟩ := pure_eq_ok.mp hrest
        obtain ⟨rfl, rfl⟩ := Prod.mk.inj hentries
        exact ⟨[], List.reverse_cons, .ended _⟩
      | false =>
        rw [hends, if_neg Bool.false_ne_true] at hrest
        obtain ⟨later, rfl, hlater⟩ := ih hrest hroom
        exact ⟨later, by rw [List.reverse_cons, List.append_assoc]; rfl, hlater⟩
    rcases chunk_cases hchunk with hplain |
      ⟨header, inner, ended', s₃, s₄, hopens, hs₃, hbody, rfl, hs₂⟩
    · rw [hs₁] at hplain
      have hroom : s₂.stage.room ≤ fuel :=
        (s.stage.leads_reopened.trans hplain.leads).room_le_of_advances hleft
          (hplain.advances (Stage.reopened_left hleft)) hfuel
      obtain ⟨later, hentries, hlater⟩ := hnext hroom
      exact ⟨e :: later, hentries, .plain hleft hplain hlater⟩
    · rw [hs₁] at hopens hs₃ hs₂
      have hpast : s.stage.Leads s₃.stage := by
        rw [hs₃]
        exact s.stage.leads_reopened.trans s.stage.reopened.leads_reread
      have hadvances : s.stage.position < s₃.stage.position := by
        rw [hs₃]
        exact Stage.position_lt_past hopens.again
      have hroom : s₃.stage.room ≤ fuel :=
        hpast.room_le_of_advances hleft (Or.inl hadvances) hfuel
      obtain ⟨inner', rfl, hinner⟩ := ih hbody hroom
      have hbehind : s₃.stage.Leads s₂.stage := by
        rw [hs₂]
        exact hinner.leads.trans (Stage.leads_closed ..)
      obtain ⟨later, hentries, hlater⟩ := hnext (Nat.le_trans hbehind.room_le hroom)
      rw [hs₃] at hinner
      rw [hs₂] at hlater
      refine ⟨_, hentries, ?_⟩
      rw [hs₁]
      exact .definition hleft hopens hinner hlater

theorem dispatched_of_chunk {fuel : Nat} {e : Option Chunk}
    (h : chunk settings (body settings fuel []) s = .ok e s')
    (hfuel : s.stage.room ≤ fuel + 1) : Dispatched settings s.stage e s'.stage := by
  rcases chunk_cases h with hplain |
    ⟨header, inner, ended, s₁, s₂, hopens, hs₁, hbody, rfl, hs'⟩
  · exact .plain hplain
  · have hpast : s.stage.Leads s₁.stage := by
      rw [hs₁]
      exact s.stage.leads_reread
    have hadvances : s.stage.position < s₁.stage.position := by
      rw [hs₁]
      exact Stage.position_lt_past hopens.again
    obtain ⟨inner', rfl, hinner⟩ :=
      gathers_of_body hbody (hpast.room_le_of_advances hopens.first (Or.inl hadvances) hfuel)
    rw [hs₁] at hinner
    rw [hs']
    exact .definition hopens hinner

/-- Nor is the bound of a scan. -/
theorem scans_of_scan {fuel : Nat} {u : Unit} (h : scan settings fuel s = .ok u s')
    (hfuel : s.stage.room ≤ fuel) : ∃ entries, Scans settings s.stage entries s'.stage := by
  induction fuel generalizing s with
  | zero =>
    obtain ⟨-, rfl⟩ := pure_eq_ok.mp h
    refine ⟨[], .exhausted ?_⟩
    by_contra hleft
    exact absurd (Stage.room_pos hleft) (Nat.not_lt_of_le hfuel)
  | succ fuel ih =>
    rw [scan] at h
    obtain ⟨finished, s₀, hend, h⟩ := bind_eq_ok.mp h
    obtain ⟨hfinished, hs₀⟩ := atEnd_cases hend
    cases finished with
    | true =>
      obtain ⟨-, rfl⟩ := pure_eq_ok.mp h
      rw [hs₀]
      exact ⟨[], .exhausted (hfinished.mp rfl)⟩
    | false =>
      have hleft : ¬ s.stage.AtEnd := fun hend => absurd (hfinished.mpr hend) (by simp)
      obtain ⟨u', s₁, hcheck, h⟩ := bind_eq_ok.mp h
      rw [checkInterrupt_ok hcheck] at h
      obtain ⟨e, s₂, hchunk, h⟩ := bind_eq_ok.mp h
      have hdispatched := dispatched_of_chunk hchunk (by rw [hs₀]; exact hfuel)
      rw [hs₀] at hdispatched
      have hroom : s₂.stage.room ≤ fuel :=
        hdispatched.leads.room_le_of_advances hleft (hdispatched.advances (Or.inl hleft)) hfuel
      cases e with
      | none =>
        obtain ⟨entries, hentries⟩ := ih h hroom
        exact ⟨none :: entries, .dispatch hleft hdispatched hentries⟩
      | some c =>
        obtain ⟨v, s₃, hadd, h⟩ := bind_eq_ok.mp h
        obtain ⟨-, rfl⟩ := EStateM.Result.ok.inj hadd
        obtain ⟨entries, hentries⟩ := ih h hroom
        exact ⟨some c :: entries, .dispatch hleft hdispatched hentries⟩

end Runs

/-- The stage in which the import of a source begins. -/
def Stage.initial (path : SourcePath) (source : Source) (start : Nat) : Stage :=
  ⟨source, start, -1, { path }, []⟩

theorem Stage.filed_initial (path : SourcePath) (source : Source) (start : Nat) :
    (Stage.initial path source start).Filed :=
  fun _ hd => absurd hd List.not_mem_nil

end Import

/-- A file is what a scan of its source leaves. -/
theorem Catalog.exists_scans {settings : Import.Settings} {path : SourcePath} {source : Source}
    {start : Nat} {stopped : Bool} {file : Catalog}
    (h : (ofSource settings path source start stopped).result = .ok file) :
    ∃ entries g, Import.Scans settings (.initial path source start) entries g ∧
      g.catalog = file := by
  obtain ⟨s, hrun, rfl, -⟩ := exists_run_of_ok h
  rw [Import.run] at hrun
  obtain ⟨s₀, s₁, hget, hrun⟩ := Import.bind_eq_ok.mp hrun
  obtain ⟨rfl, rfl⟩ := EStateM.Result.ok.inj hget
  obtain ⟨u, s₂, hscan, hrun⟩ := Import.bind_eq_ok.mp hrun
  obtain ⟨-, rfl⟩ := EStateM.Result.ok.inj hrun
  have hroom : (Import.Stage.initial path source start).room ≤ source.capacity + 1 :=
    Nat.le_trans (Nat.sub_le ..) (Nat.le_succ _)
  obtain ⟨entries, hentries⟩ := Import.scans_of_scan hscan hroom
  exact ⟨entries, _, hentries, rfl⟩

/-- Its top-level chunks are those that the scan gives. -/
theorem Catalog.exists_entries {settings : Import.Settings} {path : SourcePath} {source : Source}
    {start : Nat} {stopped : Bool} {file : Catalog}
    (h : (ofSource settings path source start stopped).result = .ok file) :
    ∃ entries g, Import.Scans settings (.initial path source start) entries g ∧
      g.catalog = file ∧ file.chunks.toList = present entries := by
  obtain ⟨entries, g, hscan, rfl⟩ := exists_scans h
  exact ⟨entries, g, hscan, rfl,
    hscan.toList_chunks (Import.Stage.filed_initial path source start)⟩

end AsmCatalog
