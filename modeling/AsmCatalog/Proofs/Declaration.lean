/-
The constants of a file are its equates.

A statement declares its constant while its macro is still being taken, before it is known
where its chunk will stand, and a constant of the same place would be dropped.  In the end
the constants are what one finds by going through the finished tree line by line, whatever
the source did in the meantime.

Main definitions:
* `Stage.Listed` — the constants so far stand before the cursor;
* `Stage.Declares` — from one stage to another exactly the equates among some chunks have
  been declared;
* `Chunk.Above` — one chunk begins before another and on an earlier line;
* `Catalog.equatesByLine` — the statements at all depths that are equates, line by line;
* `Catalog.ListsEquates` — the constants of a file are these, in order.

Main statements:
* `Import.Scans.declares`, `Import.Scans.ascending` — a scan declares the equates in its
  chunks, and these come line by line;
* `Catalog.listsEquates_of_ofSource` — so does every import.
-/
import AsmCatalog.Proofs.Execution

namespace AsmCatalog

/-! ### Chunks that declare nothing -/

/-- A blank line is recognized as nothing. -/
theorem Statement.form_parse_of_isBlank {text : Text} (h : Text.isBlank text = true)
    (mode : Mode) (candidates : List (Macro Chunk)) :
    (Statement.parse mode candidates text).form = none := by
  rw [Text.isBlank, List.all_eq_true] at h
  have hcode : ∀ c ∈ withoutComment text, Unicode.isWhiteSpace c = true := fun c hc =>
    h c ((List.takeWhile_prefix _).subset hc)
  have hlabel : dotLabel (withoutComment text) = (none, withoutComment text) := by
    have hnothing : Text.trimStart (withoutComment text) = [] :=
      List.dropWhile_eq_nil_iff.mpr hcode
    rw [dotLabel, hnothing]
  show Form.parse? mode candidates (dotLabel (withoutComment text)).2 = none
  rw [hlabel]
  exact if_pos (List.all_eq_true.mpr hcode)

theorem Constant.ofChunk?_of_isBlank {x : LineContext} {l : PhysicalLine}
    (h : (l.statementChunk x).isBlank = true) : Constant.ofChunk? (l.statementChunk x) = none := by
  have hblank : Text.isBlank l.text = true := h
  have hform := Statement.form_parse_of_isBlank hblank x.mode x.candidates
  show ((Statement.parse x.mode x.candidates l.text).form.bind Form.equate?).map _ = none
  rw [hform]
  rfl

/-- The equate that a chunk is. -/
def Chunk.equate? (c : Chunk) : Option Equate := c.statement?.bind Statement.equate?

theorem Constant.ofChunk?_eq (c : Chunk) :
    Constant.ofChunk? c = c.equate?.map fun e =>
      ⟨e.name, e.value, c.path, c.position, c.length, c.line⟩ :=
  Option.map_bind.symm

theorem Constant.position_of_ofChunk? {c : Chunk} {k : Constant}
    (h : Constant.ofChunk? c = some k) : k.position = c.position := by
  rw [Constant.ofChunk?_eq] at h
  obtain ⟨e, -, rfl⟩ := Option.map_eq_some_iff.mp h
  rfl

namespace Import

/-! ### What is declared between two stages -/

namespace Stage

/-- The constants so far stand before the cursor. -/
def Listed (g : Stage) : Prop := ∀ k ∈ g.catalog.constants, k.position < g.position

/-- From the stage `g` to the stage `g'` the equates among these chunks have been declared,
in order, and no other constant. -/
def Declares (g g' : Stage) (chunks : List Chunk) : Prop :=
  g.Listed →
    g'.catalog.constants = g.catalog.constants ++ chunks.filterMap Constant.ofChunk? ∧ g'.Listed

variable {g g' g₁ g₂ g₃ : Stage} {a b : List Chunk} {c : Chunk}

theorem Listed.leads (h : g.Listed) (hleads : g.Leads g')
    (hsame : g'.catalog.constants = g.catalog.constants) : g'.Listed := by
  intro k hk
  rw [hsame] at hk
  exact Nat.lt_of_lt_of_le (h k hk) hleads.position

/-- Who moves on without a further constant has declared nothing. -/
theorem Declares.of_leads (hleads : g.Leads g')
    (hsame : g'.catalog.constants = g.catalog.constants)
    (hnone : a.filterMap Constant.ofChunk? = []) : g.Declares g' a := fun hg =>
  ⟨by rw [hnone, List.append_nil, hsame], hg.leads hleads hsame⟩

theorem Declares.trans (h : g₁.Declares g₂ a) (h' : g₂.Declares g₃ b) :
    g₁.Declares g₃ (a ++ b) := by
  intro hg
  obtain ⟨ha, hg₂⟩ := h hg
  obtain ⟨hb, hg₃⟩ := h' hg₂
  refine ⟨?_, hg₃⟩
  rw [hb, ha, List.filterMap_append, List.append_assoc]

/-- A chunk that is no equate changes nothing. -/
theorem Declares.cons (hc : Constant.ofChunk? c = none) (h : g.Declares g' a) :
    g.Declares g' (c :: a) := by
  intro hg
  rw [List.filterMap_cons, hc]
  exact h hg

/-- What moves the cursor without declaring anything may come before and behind. -/
theorem Declares.between (hleads : g₁.Leads g)
    (hsame : g.catalog.constants = g₁.catalog.constants) (h : g.Declares g' a)
    (hleads' : g'.Leads g₂) (hsame' : g₂.catalog.constants = g'.catalog.constants) :
    g₁.Declares g₂ a := by
  have hfront := (Declares.of_leads (a := []) hleads hsame rfl).trans h
  have hwhole := hfront.trans (Declares.of_leads (a := []) hleads' hsame' rfl)
  rwa [List.nil_append, List.append_nil] at hwhole

theorem constants_declaring (h : ∀ k ∈ g.catalog.constants, k.position < c.position) :
    (g.declaring c).catalog.constants =
      g.catalog.constants ++ (Constant.ofChunk? c).toList := by
  rw [declaring]
  cases hc : Constant.ofChunk? c with
  | none => exact (List.append_nil _).symm
  | some k =>
    have hk := Constant.position_of_ofChunk? hc
    show (g.catalog.declare k).constants = _
    rw [declare_of_before (by rw [hk]; exact h)]
    rfl

/-- A statement declares its constant when the cursor is behind its line. -/
theorem declares_declaring (hleft : ¬ g.AtEnd) (hposition : c.position = g.position) :
    g.Declares (g.past.declaring c) [c] := by
  intro hg
  have hbefore : ∀ k ∈ g.past.catalog.constants, k.position < c.position := by
    rw [hposition]
    exact hg
  have hconstants := constants_declaring hbefore
  refine ⟨?_, fun k hk => ?_⟩
  · rw [hconstants]
    cases hc : Constant.ofChunk? c with
    | none => rw [List.filterMap_cons, hc]; rfl
    | some k => rw [List.filterMap_cons, hc]; rfl
  · -- The new constant stands at the line, which now lies before the cursor.
    have hpast : g.position < g.past.position := position_lt_past hleft
    have hcursor : g.past.position ≤ (g.past.declaring c).position :=
      (leads_declaring g.past c).position
    rw [hconstants, List.mem_append, Option.mem_toList] at hk
    rcases hk with hk | hk
    · have := hg k hk
      omega
    · rw [Constant.position_of_ofChunk? hk, hposition]
      omega

end Stage

/-- A dispatch that takes no body declares the constant of its chunk, if that is an
equate. -/
theorem Plain.declares {settings : Settings} {g g' : Stage} {e : Option Chunk}
    (h : Plain settings g e g') : g.Declares g' e.toList := by
  have hreopened : g.Leads g.reopened := g.leads_reopened
  cases h with
  | atEnd => exact .of_leads (.refl g) rfl rfl
  | gone => exact .of_leads (hreopened.trans g.reopened.leads_counted) rfl rfl
  | comment _ _ _ hc =>
    refine .of_leads (hreopened.trans (g.reopened.leads_past.trans
      (Stage.leads_reported _ _))) rfl ?_
    rw [hc]
    rfl
  | statement _ hagain _ hc =>
    refine (Stage.declares_declaring hagain ?_).between hreopened rfl
      (Stage.leads_reported _ _) rfl
    rw [hc]
    rfl
  | @blank c _ hagain _ hc hblank =>
    -- A blank statement is dropped, and so it had better declare nothing.
    have hnone : Constant.ofChunk? c = none := by
      rw [hc] at hblank ⊢
      exact Constant.ofChunk?_of_isBlank hblank
    have hsame : g.reopened.past.declaring c = g.reopened.past := by
      rw [Stage.declaring, hnone]
    rw [hsame]
    exact .of_leads (hreopened.trans g.reopened.leads_past) rfl rfl
  | malformed _ _ _ _ hc =>
    refine .of_leads (hreopened.trans (g.reopened.leads_past.trans ?_)) rfl ?_
    · exact ⟨Nat.le_refl _, Int.le_refl _, rfl, Or.inl rfl, Nat.le_refl _⟩
    · rw [hc]
      rfl

theorem Plain.flatMap_all {settings : Settings} {g g' : Stage} {e : Option Chunk}
    (h : Plain settings g e g') : (e.map Chunk.all).getD [] = e.toList := by
  cases e with
  | none => rfl
  | some c => exact Chunk.all_of_body_nil h.body_nil

/-- The lines of a body declare the equates at any depth. -/
theorem Gathers.declares {settings : Settings} {g g' : Stage} {entries : List (Option Chunk)}
    {closed ended : Bool} (h : Gathers settings closed g entries ended g') :
    g.Declares g' ((present entries).flatMap Chunk.all) := by
  induction h with
  | ended g => exact .of_leads (.refl g) rfl rfl
  | exhausted => exact .of_leads (.refl _) rfl rfl
  | plain _ hplain _ ih =>
    rw [flatMap_present_cons, hplain.flatMap_all]
    exact (hplain.declares.between (Stage.leads_reopened _) rfl (.refl _) rfl).trans ih
  | @definition g g₁ g₂ header inner later ended ended' _ hopens _ _ ihb ihn =>
    have hpast := g.leads_reopened.trans g.reopened.leads_reread
    rw [flatMap_present_cons, Option.map_some, Option.getD_some, Chunk.all_eq]
    -- The header declares nothing, so it may stand before its body in the list.
    exact ((ihb.between hpast rfl (Stage.leads_closed ..) rfl).cons rfl).trans ihn

theorem Dispatched.declares {settings : Settings} {g g' : Stage} {e : Option Chunk}
    (h : Dispatched settings g e g') : g.Declares g' ((e.map Chunk.all).getD []) := by
  cases h with
  | plain hplain =>
    rw [hplain.flatMap_all]
    exact hplain.declares
  | definition _ hbody =>
    have hpast := g.leads_reread
    rw [Option.map_some, Option.getD_some, Chunk.all_eq]
    exact (hbody.declares.between hpast rfl (Stage.leads_closed ..) rfl).cons rfl

theorem Stage.constants_added (g : Stage) (e : Option Chunk) :
    (g.added e).catalog.constants = g.catalog.constants := by
  cases e <;> rfl

/-- A scan declares the equates in its chunks at all depths. -/
theorem Scans.declares {settings : Settings} {g g' : Stage} {entries : List (Option Chunk)}
    (h : Scans settings g entries g') : g.Declares g' ((present entries).flatMap Chunk.all) := by
  induction h with
  | exhausted => exact .of_leads (.refl _) rfl rfl
  | @dispatch g g₁ g₂ e later _ hfirst _ ih =>
    rw [flatMap_present_cons]
    exact (hfirst.declares.between (.refl g) rfl (Stage.leads_added _ _)
      (Stage.constants_added g₁ e)).trans ih

end Import

/-! ### The order of the tree -/

/-- The chunk `a` begins before the chunk `b`, and on an earlier line. -/
def Chunk.Above (a b : Chunk) : Prop := a.position < b.position ∧ a.line < b.line

namespace Import

/-- What stands between two stages is above what stands behind the second one. -/
theorem Stage.Spans.above {g₁ g₂ g₃ : Stage} {a b : Chunk} (ha : g₁.Spans g₂ a)
    (hb : g₂.Spans g₃ b) : a.Above b :=
  ⟨Nat.lt_of_lt_of_le ha.position.2 hb.position.1, Int.lt_of_le_of_lt ha.line.2 hb.line.1⟩

/-- A header is above what stands behind its line. -/
theorem Stage.Opens.above {g g₁ g₂ : Stage} {mode : Mode} {header : MacroHeader} {b : Chunk}
    {entries : List (Option Chunk)} (hopens : g.Opens mode header)
    (hb : g.reopened.past.Spans g₁ b) : (g.definition header entries g₂).Above b :=
  have hpast : g.position < g.reopened.past.position := Stage.position_lt_past hopens.again
  ⟨Nat.lt_of_lt_of_le hpast hb.position.1, hb.line.1⟩

/-- The chunks of a body come line by line, each header before its body. -/
theorem Gathers.ascending {settings : Settings} {g g' : Stage} {entries : List (Option Chunk)}
    {closed ended : Bool} (h : Gathers settings closed g entries ended g') :
    ((present entries).flatMap Chunk.all).Pairwise Chunk.Above := by
  induction h with
  | ended => exact .nil
  | exhausted => exact .nil
  | @plain g g₁ g₂ e later ended _ hplain hnext ih =>
    rw [flatMap_present_cons, hplain.flatMap_all]
    cases e with
    | none => exact ih
    | some c => exact .cons (fun d hd => hplain.spans.above (hnext.spans hd)) ih
  | @definition g g₁ g₂ header inner later ended ended' _ hopens hbody hnext ihb ihn =>
    have hbehind : g₁.Leads (g.reopened.closed header inner ended g₁) := Stage.leads_closed ..
    have hheader := hopens.spans_definition hbody.leads inner
    rw [flatMap_present_cons, Option.map_some, Option.getD_some, Chunk.all_eq,
      List.pairwise_append]
    refine ⟨.cons (fun d hd => hopens.above (hbody.spans hd)) ihb, ihn, fun c hc d hd => ?_⟩
    have hd := (hnext.spans hd).mono hbehind (.refl _)
    rcases List.mem_cons.mp hc with rfl | hc
    · exact hheader.above hd
    · exact (hbody.spans hc).above hd

theorem Dispatched.ascending {settings : Settings} {g g' : Stage} {c : Chunk}
    (h : Dispatched settings g (some c) g') : c.all.Pairwise Chunk.Above := by
  cases h with
  | plain hplain =>
    rw [Chunk.all_of_body_nil hplain.body_nil]
    exact List.pairwise_singleton ..
  | definition hopens hbody =>
    rw [Chunk.all_eq]
    exact .cons (fun d hd => hopens.above (hbody.spans hd)) hbody.ascending

/-- The chunks of a scan come line by line. -/
theorem Scans.ascending {settings : Settings} {g g' : Stage} {entries : List (Option Chunk)}
    (h : Scans settings g entries g') :
    ((present entries).flatMap Chunk.all).Pairwise Chunk.Above := by
  induction h with
  | exhausted => exact .nil
  | @dispatch g g₁ g₂ e later _ hfirst hnext ih =>
    rw [flatMap_present_cons]
    cases e with
    | none => exact ih
    | some c =>
      refine List.pairwise_append.mpr ⟨hfirst.ascending, ih, fun a ha b hb => ?_⟩
      exact (hfirst.spans ha).above ((hnext.spans hb).mono (g₁.leads_added _) (.refl _))

end Import

/-! ### Files -/

namespace Catalog

/-- The chunks at all depths that are equates, in the order of their lines. -/
def equatesByLine (file : Catalog) : List (Chunk × Equate) :=
  (file.allChunks.mergeSort fun a b => a.line ≤ b.line).filterMap fun c =>
    c.equate?.map fun e => (c, e)

/-- The constants of a file are its equates. -/
structure ListsEquates (file : Catalog) : Prop where
  /-- The tree is in the order of the lines, and no two chunks begin on the same one. -/
  ascending : file.allChunks.Pairwise fun a b => a.line < b.line
  /-- There is one constant for each equate, in the order of the lines. -/
  constants : file.constants = file.equatesByLine.map fun ⟨c, e⟩ =>
    ⟨e.name, e.value, c.path, c.position, c.length, c.line⟩
  /-- The constants have the keys of their chunks. -/
  keys : file.constants.map Constant.key = file.equatesByLine.map (·.1.key)
  /-- No two keys are the same, however their paths are spelled. -/
  distinct : file.constants.Pairwise fun a b => a.key.same b.key = false

/-- Every import gives a file whose constants are its equates. -/
theorem listsEquates_of_ofSource {settings : Import.Settings} {path : SourcePath}
    {source : Source} {start : Nat} {stopped : Bool} {file : Catalog}
    (h : (ofSource settings path source start stopped).result = .ok file) :
    file.ListsEquates := by
  obtain ⟨entries, g, hscan, rfl⟩ := exists_scans h
  have hfiled := Import.Stage.filed_initial path source start
  have hchunks : g.catalog.allChunks = (present entries).flatMap Chunk.all := by
    rw [allChunks, hscan.toList_chunks hfiled]
    rfl
  have habove : g.catalog.allChunks.Pairwise Chunk.Above := hchunks ▸ hscan.ascending
  have hdeclared : g.catalog.constants = g.catalog.allChunks.filterMap Constant.ofChunk? := by
    rw [hchunks]
    exact (hscan.declares fun _ hk => absurd hk List.not_mem_nil).1
  have hsorted : g.catalog.allChunks.mergeSort (fun a b => a.line ≤ b.line) =
      g.catalog.allChunks :=
    List.mergeSort_of_pairwise (habove.imp fun hab => decide_eq_true (Int.le_of_lt hab.2))
  have hconstants : g.catalog.constants = g.catalog.equatesByLine.map fun ⟨c, e⟩ =>
      ⟨e.name, e.value, c.path, c.position, c.length, c.line⟩ := by
    rw [hdeclared, equatesByLine, hsorted, List.map_filterMap]
    refine List.filterMap_congr fun c _ => ?_
    rw [Constant.ofChunk?_eq, Option.map_map]
    rfl
  refine ⟨habove.imp (·.2), hconstants, ?_, ?_⟩
  · rw [hconstants, List.map_map]
    rfl
  · rw [hdeclared, List.pairwise_filterMap]
    refine habove.imp fun {a b} hab k hk k' hk' => ?_
    have hlt : k.position < k'.position := by
      rw [Constant.position_of_ofChunk? hk, Constant.position_of_ofChunk? hk']
      exact hab.1
    have hne : k.key.position ≠ k'.key.position := Nat.ne_of_lt hlt
    rw [ChunkKey.same, beq_eq_false_iff_ne.mpr hne]
    rfl

/-- Equates before, inside and behind nested macros, the last of which has no end. -/
def equatingSource : Bytes :=
  Utf8.encode
    ['a', ' ', 'e', 'q', 'u', ' ', '1', '\n', 'm', ' ', 'm', 'a', 'c', 'r', 'o', '\n', 'b', ' ',
      'e', 'q', 'u', ' ', '2', '\n', 'n', ' ', 'm', 'a', 'c', 'r', 'o', '\n', '\n', 'c', ' ', 'e',
      'q', 'u', ' ', '3', '\n', 'e', 'n', 'd', 'm', '\n', 'a', ' ', 'e', 'q', 'u', ' ', '4', '\n']

theorem listsEquates_of_ofSource_equatingSource :
    ∃ file, (ofSource {} default (.ofBytes equatingSource) 0 false).result = .ok file ∧
      file.ListsEquates ∧
      file.constants.map (fun k => (String.ofList k.name, String.ofList k.value, k.line)) =
        [("a", "1", 0), ("b", "2", 2), ("c", "3", 5), ("a", "4", 7)] := by
  obtain ⟨file, hfile⟩ := exists_ok_ofBytes default .legacy [] equatingSource 0
  refine ⟨file, hfile, listsEquates_of_ofSource hfile, ?_⟩
  have hlisted : (ofSource {} default (.ofBytes equatingSource) 0 false).result.toOption.map
      (fun file => file.constants.map
        fun k => (String.ofList k.name, String.ofList k.value, k.line)) =
      some [("a", "1", 0), ("b", "2", 2), ("c", "3", 5), ("a", "4", 7)] := by decide +kernel
  have hsame : (ofSource {} default (.ofBytes equatingSource) 0 false).result = .ok file := hfile
  rw [hsame] at hlisted
  exact Option.some.inj hlisted

end Catalog

end AsmCatalog
