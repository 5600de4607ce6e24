/-
Which macros a line can call.

The candidates of a line are read from a catalog that grows while its own lines are
scanned.  Here they are told from the finished file alone: behind the macros of the
includes come the top-level macros of the file that end before the line.  So a line never
calls a macro around it, one that stands inside another macro, or one that comes later.

Main definitions:
* `firstFiles` — of several files with one path only the first;
* `Catalog.candidatesAt` — the candidates of a line, told from the finished file;
* `Catalog.Sees` — the statements of a file call what these candidates give.

Main statements:
* `firstOfPaths_nil` — the files that an import looks through are these;
* `Import.Scans.exists_dispatch` — at which stage a chunk of the finished file was found;
* `Catalog.parse_of_ofSource` — with which macros a statement of it was read;
* `Catalog.sees_of_ofSource` — every import gives a file whose statements see that.
-/
import AsmCatalog.Proofs.Execution
import AsmCatalog.Proofs.FixedSource

namespace AsmCatalog

/-! ### Files with several paths -/

/-- The files in order without those that have the path of an earlier one. -/
def firstFiles (files : List Catalog) : List Catalog :=
  (files.zipIdx.filter fun f => !(files.take f.2).any (·.path.same f.1.path)).map (·.1)

theorem firstOfPaths_eq (seen : List SourcePath) (files : List Catalog) :
    firstOfPaths seen files =
      (files.zipIdx.filter fun f =>
        !(seen.any (·.same f.1.path) || (files.take f.2).any (·.path.same f.1.path))).map
          (·.1) := by
  induction files generalizing seen with
  | nil => rfl
  | cons g rest ih =>
    have hshift : (g :: rest).zipIdx = (g, 0) :: rest.zipIdx.map fun f => (f.1, f.2 + 1) := by
      rw [List.zipIdx_cons, List.zipIdx_succ]
    rw [firstOfPaths, hshift, List.filter_cons, List.filter_map]
    simp only [Function.comp_def, List.take_zero, List.any_nil, Bool.or_false,
      List.take_succ_cons, List.any_cons]
    cases hg : seen.any (·.same g.path) with
    | true =>
      obtain ⟨p, hp, hpg⟩ := List.any_eq_true.mp hg
      -- A file with the path of `g` has a path that was seen before.
      have hseen (f : Catalog) (hgf : g.path.same f.path = true) :
          seen.any (·.same f.path) = true := by
        refine List.any_eq_true.mpr ⟨p, hp, ?_⟩
        simp only [SourcePath.same, beq_iff_eq] at hpg hgf ⊢
        exact hpg.trans hgf
      rw [if_pos rfl, if_neg (by simp), ih, List.map_map]
      congr 1
      refine List.filter_congr fun f _ => ?_
      cases hgf : g.path.same f.1.path with
      | false => rw [Bool.false_or]
      | true => rw [hseen f.1 hgf, Bool.true_or, Bool.true_or]
    | false =>
      rw [if_neg (by simp), if_pos (by simp), List.map_cons, ih, List.map_map]
      refine congrArg (g :: ·) ?_
      congr 1
      refine List.filter_congr fun f _ => ?_
      rw [List.any_cons, ← Bool.or_assoc, Bool.or_comm (g.path.same f.1.path)]

/-- An import looks through the first file with each path. -/
theorem firstOfPaths_nil (files : List Catalog) : firstOfPaths [] files = firstFiles files := by
  rw [firstOfPaths_eq, firstFiles]
  rfl

/-! ### Candidates -/

/-- The macros that a line at the offset `p` can call, told from the finished file: the
top-level macros of the includes, where of several files with one path the first counts,
and then the top-level macros of the file that end at `p` or before it, unless an include
has the path of the file. -/
def Catalog.candidatesAt (file : Catalog) (includes : List Catalog) (p : Nat) :
    List (Macro Chunk) :=
  (firstFiles includes).flatMap (·.chunks.toList.filterMap Chunk.definition?) ++
    if includes.any (·.path.same file.path) then []
    else (file.chunks.toList.filter (·.stop ≤ p)).filterMap Chunk.definition?

/-- While a file is scanned, the candidates are these as soon as the chunks that were found
are the ones that end before the line. -/
theorem Catalog.callable_filter (file : Catalog) (mode : Mode) (includes : List Catalog)
    (p : Nat) :
    (⟨file.path, mode, includes⟩ : FileContext).callable
        (file.chunks.toList.filter (·.stop ≤ p)) = file.candidatesAt includes p := by
  have hfiles : visibleMacros (firstOfPaths [] includes) =
      (firstFiles includes).flatMap (·.chunks.toList.filterMap Chunk.definition?) := by
    rw [firstOfPaths_nil, visibleMacros]
    exact List.flatMap_congr fun f _ => ChunkSet.filterMap_eq ..
  rw [FileContext.callable, hfiles, Catalog.candidatesAt]

theorem mem_of_resolveMacro? {mode : Mode} {candidates : List (Macro Chunk)} {name : Text}
    {m : Macro Chunk} (h : resolveMacro? mode candidates name = some m) : m ∈ candidates := by
  cases mode with
  | legacy =>
    rw [resolveMacro?.eq_1] at h
    split at h
    · exact List.mem_of_find?_eq_some h
    · exact absurd h (by simp)
  | strict => exact List.mem_of_find?_eq_some h

/-- A statement calls one of its candidates. -/
theorem callee_mem_of_form {mode : Mode} {candidates : List (Macro Chunk)} {text : Text}
    {i : Invocation Chunk} (h : (Statement.parse mode candidates text).form = some (.invoke i)) :
    i.callee ∈ candidates := by
  have hform : Form.parse? mode candidates (dotLabel (withoutComment text)).2 =
      some (.invoke i) := h
  rw [Form.parse?] at hform
  split at hform
  · exact absurd hform (by simp)
  · split at hform
    · exact absurd hform (by simp)
    · obtain ⟨i', hcall, heq⟩ := Option.map_eq_some_iff.mp hform
      obtain rfl := Form.invoke.inj heq
      rw [Invocation.parse?] at hcall
      obtain ⟨m, hresolve, rfl⟩ := Option.map_eq_some_iff.mp hcall
      have hm := mem_of_resolveMacro? hresolve
      split
      · exact hm
      · exact hm

/-- What code that is not blank and no equate is, is what the search for a call gives. -/
theorem form_parse {mode : Mode} {candidates : List (Macro Chunk)} {text : Text}
    (hblank : Text.isBlank (dotLabel (withoutComment text)).2 = false)
    (hequate : Equate.parse? mode (dotLabel (withoutComment text)).2 = none) :
    (Statement.parse mode candidates text).form =
      (Invocation.parse? mode candidates (dotLabel (withoutComment text)).2).map .invoke := by
  show Form.parse? mode candidates (dotLabel (withoutComment text)).2 = _
  rw [Form.parse?, if_neg (by simp [hblank]), hequate]

/-! ### When a chunk was found -/

namespace Import

variable {settings : Settings} {g g' : Stage}

/-- A chunk that has bytes of its own begins before the top-level chunk around it ends. -/
theorem Dispatched.position_lt_stop {c d : Chunk} (h : Dispatched settings g (some d) g')
    (hc : c ∈ d.all) (hkind : c.kind ≠ .comment) : c.position < d.stop := by
  cases h with
  | plain hplain =>
    rw [Chunk.all_of_body_nil hplain.body_nil, List.mem_singleton] at hc
    subst hc
    cases hplain with
    | comment _ _ _ hd => exact absurd (by rw [hd]; rfl) hkind
    | statement _ hagain _ hd =>
      have hlt : g.reopened.position < g.reopened.here.stop := Stage.position_lt_past hagain
      rw [hd]
      exact hlt
    | malformed _ hagain _ _ hd =>
      have hlt : g.reopened.position < g.reopened.here.stop := Stage.position_lt_past hagain
      rw [hd]
      exact hlt
  | @definition g₁ header inner ended hopens hbody =>
    have hspans := hopens.spans_definition hbody.leads inner
    have hstop : (g.definition header inner g₁).stop = g₁.position :=
      Nat.add_sub_of_le (Nat.le_of_lt hspans.position.2)
    rw [hstop]
    rcases Chunk.mem_all_iff.mp hc with rfl | ⟨e, he, hc⟩
    · exact hspans.position.2
    · exact (hbody.spans (List.mem_flatMap.mpr ⟨e, mem_present.mpr he, hc⟩)).position.2

namespace Scans

variable {entries : List (Option Chunk)} {c d : Chunk}

theorem position_lt_stop (h : Scans settings g entries g') (hd : d ∈ present entries)
    (hc : c ∈ d.all) (hkind : c.kind ≠ .comment) : c.position < d.stop := by
  induction h with
  | exhausted => exact absurd hd List.not_mem_nil
  | @dispatch _ _ _ e _ _ hfirst _ ih =>
    cases e with
    | none => exact ih hd
    | some d' =>
      rcases List.mem_cons.mp hd with rfl | hd
      · exact hfirst.position_lt_stop hc hkind
      · exact ih hd

/-- A chunk was found by a dispatch from a stage in which the top-level chunks were those
that end before it. -/
theorem exists_dispatch (h : Scans settings g entries g') (hg : g.Filed)
    (hc : c ∈ (present entries).flatMap Chunk.all) (hkind : c.kind ≠ .comment) :
    ∃ g₁ g₂ d, Dispatched settings g₁ (some d) g₂ ∧ c ∈ d.all ∧
      g₁.catalog.path = g'.catalog.path ∧
      g₁.catalog.chunks.toList = g'.catalog.chunks.toList.filter (·.stop ≤ c.position) := by
  induction h with
  | exhausted => exact absurd hc List.not_mem_nil
  | @dispatch g g₁ g₂ e later hleft hfirst hnext ih =>
    obtain ⟨-, hfiled⟩ := hfirst.filed hg
    rw [flatMap_present_cons, List.mem_append] at hc
    rcases hc with hc | hc
    · cases e with
      | none => exact absurd hc List.not_mem_nil
      | some d =>
        have hcd : c ∈ d.all := hc
        have hscan := Scans.dispatch hleft hfirst hnext
        refine ⟨g, g₁, d, hfirst, hcd, hscan.leads.path.symm, ?_⟩
        have hspans := hfirst.spans hcd
        -- What was found before ends before the cursor, and neither the chunk around the
        -- line nor one behind it ends before the line.
        have hbefore : ∀ a ∈ g.catalog.chunks.toList, decide (a.stop ≤ c.position) = true :=
          fun a ha => decide_eq_true (Nat.le_trans (hg a ha).2.2 hspans.position.1)
        have hbehind : ∀ a ∈ d :: present later, ¬ decide (a.stop ≤ c.position) = true := by
          intro a ha
          have hlt : c.position < a.stop := by
            rcases List.mem_cons.mp ha with rfl | ha
            · exact hfirst.position_lt_stop hcd hkind
            · have ha := hnext.spans (List.mem_flatMap.mpr ⟨a, ha, a.mem_all_self⟩)
              calc c.position < g₁.position := hspans.position.2
                _ ≤ a.position := ha.position.1
                _ ≤ a.stop := Nat.le_add_right ..
          rw [decide_eq_true_iff]
          exact Nat.not_le_of_lt hlt
        rw [hscan.toList_chunks hg, present_some, List.filter_append,
          List.filter_eq_self.mpr hbefore, List.filter_eq_nil_iff.mpr hbehind, List.append_nil]
    · exact ih hfiled hc

end Scans

/-- As long as no top-level chunk is added, all statements are read with the same macros. -/
theorem carries_parse (settings : Settings) (path : SourcePath) (chunks : ChunkSet) :
    Carries settings (fun g => g.catalog.path = path ∧ g.catalog.chunks = chunks) fun c =>
      ∀ st, c.content = .statement st → ∃ text,
        st = .parse settings.mode
          ((⟨path, settings.mode, settings.includes⟩ : FileContext).callable chunks.toList)
          text where
  step := fun ⟨hpath, hchunks⟩ hleads hsame => ⟨hleads.path.trans hpath, hsame.trans hchunks⟩
  plain := by
    rintro g g' c ⟨rfl, rfl⟩ hplain st hst
    cases hplain with
    | comment _ _ _ hc =>
      rw [hc] at hst
      exact absurd hst (by simp [PhysicalLine.commentChunk])
    | statement _ _ _ hc _ =>
      rw [hc] at hst
      refine ⟨g.reopened.here.text, (Content.statement.inj hst).symm.trans ?_⟩
      rw [← visibleMacros_eq_callable _ rfl]
      rfl
    | malformed _ _ _ _ hc =>
      rw [hc] at hst
      exact absurd hst (by simp [PhysicalLine.malformed])
  definition := fun _ _ _ _ hst => absurd hst (by simp [Stage.definition])

end Import

/-! ### Files -/

namespace Catalog

/-- A file came of some import. -/
def Imported (file : Catalog) : Prop :=
  ∃ settings path source start stopped,
    (ofSource settings path source start stopped).result = .ok file

/-- No top-level chunk stands in the body of a macro. -/
theorem Imported.not_mem_body {file : Catalog} (h : file.Imported) {d m : Chunk}
    (hd : d ∈ file.chunks.toList) (hm : m ∈ file.allChunks) : some d ∉ m.body := by
  obtain ⟨settings, path, source, start, stopped, h⟩ := h
  obtain ⟨entries, g, hscan, rfl, hchunks⟩ := exists_entries h
  intro hbody
  obtain ⟨a, ha, hma⟩ := List.mem_flatMap.mp hm
  rw [hchunks] at hd ha
  have hda := Chunk.mem_all_of_mem_body hma hbody
  by_cases had : a = d
  · -- A chunk is not inside itself.
    subst had
    exact absurd (Nat.lt_of_lt_of_le (Chunk.sizeOf_lt_of_mem_body hbody)
      (Chunk.sizeOf_le_of_mem_all hma)) (Nat.lt_irrefl _)
  · -- One that is inside another top-level chunk would lie before itself.
    rcases hscan.precedes_or ha hd had with hbefore | hbefore
    · exact hbefore.not_mem_all.2 hda
    · exact hbefore.not_mem_all.1 hda

/-- Every statement was parsed with the candidates that the finished file gives. -/
theorem parse_of_ofSource {settings : Import.Settings} {path : SourcePath} {source : Source}
    {start : Nat} {stopped : Bool} {file : Catalog}
    (h : (ofSource settings path source start stopped).result = .ok file) {c : Chunk}
    (hc : c ∈ file.allChunks) {s : Statement Chunk} (hs : c.content = .statement s) :
    ∃ text, s = .parse settings.mode (file.candidatesAt settings.includes c.position) text := by
  obtain ⟨entries, g, hscan, rfl, hchunks⟩ := exists_entries h
  have hfiled := Import.Stage.filed_initial path source start
  have hkind : c.kind ≠ .comment := by simp [Chunk.kind_of_statement hs]
  rw [allChunks, hchunks] at hc
  obtain ⟨g₁, g₂, d, hdispatched, hcd, hpath, hfound⟩ := hscan.exists_dispatch hfiled hc hkind
  obtain ⟨text, htext⟩ := hdispatched.forall_chunk
    (Import.carries_parse settings g₁.catalog.path g₁.catalog.chunks) ⟨rfl, rfl⟩ hcd s hs
  exact ⟨text, by rw [htext, hpath, hfound, callable_filter]⟩

/-- What the statements of a file can call. -/
structure Sees (file : Catalog) (settings : Import.Settings) : Prop where
  /-- The top-level chunks are listed by their positions. -/
  ordered : file.chunks.toList.Pairwise fun a b => a.position < b.position
  /-- A line whose code is not blank and no equate calls what the search among its
  candidates gives. -/
  form : ∀ c ∈ file.allChunks, ∀ st, c.content = .statement st →
    Text.isBlank (dotLabel (withoutComment st.text)).2 = false →
    Equate.parse? settings.mode (dotLabel (withoutComment st.text)).2 = none →
    st.form =
      (Invocation.parse? settings.mode (file.candidatesAt settings.includes c.position)
        (dotLabel (withoutComment st.text)).2).map .invoke
  /-- What is called is a top-level macro of an include, the first with its path, or one of
  the file.  One of the file comes before the line and is not around it, and neither stands
  in the body of another macro. -/
  callee : ∀ c ∈ file.allChunks, ∀ st i, c.content = .statement st →
    st.form = some (.invoke i) →
      (∃ f ∈ firstFiles settings.includes, ∃ d ∈ f.chunks.toList,
        d.definition? = some i.callee ∧ (f.Imported → ∀ m ∈ f.allChunks, some d ∉ m.body)) ∨
      ((∀ f ∈ settings.includes, f.path.same file.path = false) ∧
        ∃ d ∈ file.chunks.toList, d.definition? = some i.callee ∧ d.stop ≤ c.position ∧
          d.position < c.position ∧ c ∉ d.all ∧ ∀ m ∈ file.allChunks, some d ∉ m.body)

/-- Every import gives a file whose statements call what the finished file says. -/
theorem sees_of_ofSource {settings : Import.Settings} {path : SourcePath} {source : Source}
    {start : Nat} {stopped : Bool} {file : Catalog}
    (h : (ofSource settings path source start stopped).result = .ok file) :
    file.Sees settings := by
  have himported : file.Imported := ⟨settings, path, source, start, stopped, h⟩
  have hparsed : ∀ c ∈ file.allChunks, ∀ st, c.content = .statement st → ∃ text, st =
      .parse settings.mode (file.candidatesAt settings.includes c.position) text :=
    fun _ hc _ hst => parse_of_ofSource h hc hst
  obtain ⟨entries, g, hscan, rfl⟩ := exists_scans h
  have hfiled := Import.Stage.filed_initial path source start
  have hchunks : g.catalog.chunks.toList = present entries := hscan.toList_chunks hfiled
  refine ⟨?_, ?_, ?_⟩
  · rw [hchunks]
    exact hscan.ordered.imp fun hab =>
      (hab _ (Chunk.mem_all_self _) _ (Chunk.mem_all_self _)).2.1
  · intro c hc st hst hblank hequate
    obtain ⟨text, rfl⟩ := hparsed c hc st hst
    exact form_parse hblank hequate
  · intro c hc st i hst hform
    obtain ⟨text, rfl⟩ := hparsed c hc st hst
    have hmem := callee_mem_of_form hform
    rw [candidatesAt, List.mem_append] at hmem
    rcases hmem with hmem | hmem
    · obtain ⟨f, hf, hmem⟩ := List.mem_flatMap.mp hmem
      obtain ⟨d, hd, hdef⟩ := List.mem_filterMap.mp hmem
      exact Or.inl ⟨f, hf, d, hd, hdef, fun hf m hm => hf.not_mem_body hd hm⟩
    · split at hmem
      · exact absurd hmem List.not_mem_nil
      · rename_i hother
        obtain ⟨d, hd, hdef⟩ := List.mem_filterMap.mp hmem
        obtain ⟨hd, hstop⟩ := List.mem_filter.mp hd
        have hstop : d.stop ≤ c.position := of_decide_eq_true hstop
        have hkind : c.kind ≠ .comment := by simp [Chunk.kind_of_statement hst]
        have hdkind : d.kind ≠ .comment := by simp [Chunk.kind_of_definition? hdef]
        have hd' : d ∈ present entries := hchunks ▸ hd
        refine Or.inr ⟨fun f hf => ?_, d, hd, hdef, hstop, ?_, ?_, fun m hm =>
          himported.not_mem_body hd hm⟩
        · rw [← Bool.not_eq_true]
          exact fun hsame => hother (List.any_eq_true.mpr ⟨f, hf, hsame⟩)
        · exact Nat.lt_of_lt_of_le (hscan.position_lt_stop hd' d.mem_all_self hdkind) hstop
        · exact fun hcd => absurd (hscan.position_lt_stop hd' hcd hkind) (Nat.not_lt_of_le hstop)

/-- A macro that is called inside itself, behind itself, and by a line before it. -/
def callingSource : Bytes :=
  Utf8.encode
    ['\t', 'm', '\n', 'm', ' ', 'm', 'a', 'c', 'r', 'o', '\n', '\t', 'm', '\n', '\t', 'e', 'n', 'd',
      'm', '\n', '\t', 'm', '\n']

theorem sees_of_ofSource_callingSource :
    ∃ file, (ofSource {} default (.ofBytes callingSource) 0 false).result = .ok file ∧
      file.Sees {} ∧
      file.allChunks.map (fun c => (c.position, (c.statement?.bind (·.invocation?)).isSome)) =
        [(0, false), (3, false), (11, false), (14, false), (20, true)] := by
  obtain ⟨file, hfile⟩ := exists_ok_ofBytes default .legacy [] callingSource 0
  refine ⟨file, hfile, sees_of_ofSource hfile, ?_⟩
  have hcalls : (ofSource {} default (.ofBytes callingSource) 0 false).result.toOption.map
      (fun file => file.allChunks.map
        fun c => (c.position, (c.statement?.bind (·.invocation?)).isSome)) =
      some [(0, false), (3, false), (11, false), (14, false), (20, true)] := by decide +kernel
  have hsame : (ofSource {} default (.ofBytes callingSource) 0 false).result = .ok file := hfile
  rw [hsame] at hcalls
  exact Option.some.inj hcalls

end Catalog

end AsmCatalog
