/-
Further includes behind those that a file is imported with.

The files behind the includes come between them and the file itself.  They may hide macros of
the file behind others of the same name, but they hide no macro of an include, and as long as
none of them has the path of the file its own macros stay in sight.  So no call is lost, and
the call of a macro of an include stays as it is.  An include whose path has come before is
passed over, so that a list which only repeats paths changes nothing at all.

Main definitions:
* `Chunk.Keeps` — what further includes leave of the call on a line;
* `Import.SeesAs` — settings with which every file sees the same files.

Main statements:
* `firstOfPaths_append` — the files behind others add to them what has a new path;
* `resolveMacro?_append` — a macro among the first candidates is found whatever comes behind;
* `Import.SeesAs.ofSource_eq` — an import depends on its includes by what the file sees;
* `Catalog.keeps_of_ofSource` — an import with further includes.
-/
import AsmCatalog.Proofs.Comparison
import AsmCatalog.Proofs.Lockstep

namespace AsmCatalog

/-! ### Files behind others -/

/-- The files behind others are looked through for paths that have not come before. -/
theorem firstOfPaths_append (seen : List SourcePath) (files more : List Catalog) :
    ∃ seen', firstOfPaths seen (files ++ more) =
        firstOfPaths seen files ++ firstOfPaths seen' more ∧
      ∀ f ∈ files, seen'.any (·.same f.path) = true := by
  suffices h : ∃ seen', firstOfPaths seen (files ++ more) =
      firstOfPaths seen files ++ firstOfPaths seen' more ∧
        (∀ f ∈ files, seen'.any (·.same f.path) = true) ∧
        ∀ path, seen.any (·.same path) = true → seen'.any (·.same path) = true by
    obtain ⟨seen', happend, hfiles, -⟩ := h
    exact ⟨seen', happend, hfiles⟩
  induction files generalizing seen with
  | nil => exact ⟨seen, rfl, fun _ hf => absurd hf List.not_mem_nil, fun _ h => h⟩
  | cons g rest ih =>
    rw [List.cons_append, firstOfPaths, firstOfPaths]
    by_cases hg : seen.any (·.same g.path) = true
    · obtain ⟨seen', happend, hfiles, hseen⟩ := ih seen
      rw [if_pos hg, if_pos hg]
      refine ⟨seen', happend, fun f hf => ?_, hseen⟩
      rcases List.mem_cons.mp hf with rfl | hf
      · exact hseen f.path hg
      · exact hfiles f hf
    · obtain ⟨seen', happend, hfiles, hseen⟩ := ih (g.path :: seen)
      rw [if_neg hg, if_neg hg, happend]
      refine ⟨seen', rfl, fun f hf => ?_, fun path hpath => hseen path ?_⟩
      · rcases List.mem_cons.mp hf with rfl | hf
        · exact hseen f.path (by rw [List.any_cons, SourcePath.same_refl, Bool.true_or])
        · exact hfiles f hf
      · rw [List.any_cons, hpath, Bool.or_true]

/-- Files whose paths have come before are passed over. -/
theorem firstOfPaths_of_seen {seen : List SourcePath} {files : List Catalog}
    (h : ∀ f ∈ files, seen.any (·.same f.path) = true) : firstOfPaths seen files = [] := by
  induction files with
  | nil => rfl
  | cons f rest ih =>
    rw [firstOfPaths, if_pos (h f List.mem_cons_self)]
    exact ih fun g hg => h g (List.mem_cons_of_mem _ hg)

theorem exists_firstFiles_append (files more : List Catalog) :
    ∃ extra, firstFiles (files ++ more) = firstFiles files ++ extra := by
  obtain ⟨seen', happend, -⟩ := firstOfPaths_append [] files more
  rw [← firstOfPaths_nil, ← firstOfPaths_nil]
  exact ⟨_, happend⟩

theorem SourcePath.same_trans {a b c : SourcePath} (h : a.same b = true)
    (h' : b.same c = true) : a.same c = true := by
  simp only [same, beq_iff_eq] at h h' ⊢
  exact h.trans h'

/-- Further includes whose paths have all come before do not change what a file sees. -/
theorem visibleCatalogs_append {includes more : List Catalog}
    (h : ∀ g ∈ more, ∃ f ∈ includes, f.path.same g.path = true) (current : Catalog) :
    visibleCatalogs (includes ++ more) current = visibleCatalogs includes current := by
  obtain ⟨seen', happend, hseen⟩ := firstOfPaths_append [] includes more
  have hnothing : firstOfPaths seen' more = [] := by
    refine firstOfPaths_of_seen fun g hg => ?_
    obtain ⟨f, hf, hfg⟩ := h g hg
    obtain ⟨p, hp, hpf⟩ := List.any_eq_true.mp (hseen f hf)
    exact List.any_eq_true.mpr ⟨p, hp, SourcePath.same_trans hpf hfg⟩
  have hany : (includes ++ more).any (·.path.same current.path) =
      includes.any (·.path.same current.path) := by
    rw [List.any_append, Bool.or_eq_left_iff_imp]
    intro hmore
    obtain ⟨g, hg, hcurrent⟩ := List.any_eq_true.mp hmore
    obtain ⟨f, hf, hfg⟩ := h g hg
    exact List.any_eq_true.mpr ⟨f, hf, SourcePath.same_trans hfg hcurrent⟩
  rw [visibleCatalogs, visibleCatalogs, firstOfPaths_concat, firstOfPaths_concat, happend,
    hnothing, List.append_nil, hany]

/-! ### Candidates behind others -/

section Search

variable {mode : Mode} {first candidates more : List (Macro Chunk)}

/-- A macro that is found among the first candidates is found whatever comes behind them. -/
theorem resolveMacro?_append {name : Text} {m : Macro Chunk} (hm : m ∈ first)
    (h : resolveMacro? mode (first ++ candidates) name = some m)
    (hmore : ∃ m', resolveMacro? mode (first ++ more) name = some m') :
    resolveMacro? mode (first ++ more) name = some m := by
  have hfind : ∀ p : Macro Chunk → Bool, (first ++ candidates).find? p = some m →
      (first ++ more).find? p = some m := by
    intro p hp
    have hsome : (first.find? p).isSome := List.find?_isSome.mpr ⟨m, hm, List.find?_some hp⟩
    obtain ⟨a, ha⟩ := Option.isSome_iff_exists.mp hsome
    rw [List.find?_append, ha, Option.some_or] at hp ⊢
    exact hp
  cases mode with
  | strict => exact hfind _ h
  | legacy =>
    -- What is searched for is the same, but first some candidate must have it in lower case.
    obtain ⟨m', hmore⟩ := hmore
    rw [resolveMacro?.eq_1] at h hmore ⊢
    split at hmore
    · rename_i hlowered
      rw [if_pos hlowered]
      split at h
      · exact hfind _ h
      · exact absurd h (by simp)
    · exact absurd hmore (by simp)

/-- The call of a macro among the first candidates is this call whatever comes behind them. -/
theorem Invocation.parse?_append {code : Text} {i i' : Invocation Chunk} (hi : i.callee ∈ first)
    (h : Invocation.parse? mode (first ++ candidates) code = some i)
    (h' : Invocation.parse? mode (first ++ more) code = some i') : i' = i := by
  rw [parse?_eq] at h h'
  obtain ⟨m, hm, rfl⟩ := Option.map_eq_some_iff.mp h
  obtain ⟨m', hm', rfl⟩ := Option.map_eq_some_iff.mp h'
  rw [callee_of] at hi
  have hfound := resolveMacro?_append hi hm ⟨m', hm'⟩
  rw [Option.some.inj (hm'.symm.trans hfound)]

end Search

/-! ### Imports that see the same files -/

namespace Import

/-- With both settings every file sees the same files, in one mode and one time. -/
structure SeesAs (x x' : Settings) : Prop where
  mode : x.mode = x'.mode
  timeOver : x.timeOver = x'.timeOver
  visible : ∀ current, visibleCatalogs x.includes current = visibleCatalogs x'.includes current

namespace SeesAs

variable {x x' : Settings} (h : SeesAs x x')
include h

/-- Imports with such settings are in lockstep over one cursor. -/
theorem lockstep : Lockstep (fun c d => d = c) True x x' where
  position hd := hd ▸ rfl
  lastLength hd := hd ▸ rfl
  capacity hd := hd ▸ rfl
  atEnd := .refl _ _
  readLine := .refl _ _
  seek _ := .refl _ _
  mode := h.mode.symm
  visible file := (h.visible file).symm
  interrupt := follows_checkInterrupt (fun hd => hd ▸ rfl) h.timeOver.symm

/-- An import depends on its includes only by the files that the file sees. -/
theorem ofSource_eq (path : SourcePath) (source : Source) (start : Nat) (stopped : Bool) :
    Catalog.ofSource x path source start stopped =
      Catalog.ofSource x' path source start stopped :=
  (Catalog.ofSource_of_lockstep h.lockstep (fun hd => hd ▸ rfl) rfl rfl path).symm

end SeesAs

end Import

/-! ### Files -/

/-- What further includes leave of a line: it is the same line but for what it calls, and if
it is a call it still is one, with what it passes and to a macro of this name.  The call of a
macro that an include offers, which is the first one of its path, does not change at all. -/
structure Chunk.Keeps (mode : Mode) (includes : List Catalog) (c c' : Chunk) : Prop where
  same : c.through .declarations = c'.through .declarations
  invocation : ∀ i, c.invocation? = some i → ∃ i', c'.invocation? = some i' ∧
    i.Renews mode i' ∧ ((∃ f ∈ firstFiles includes, i.callee ∈ f.macros) → i' = i)

namespace Catalog

/-- Includes behind those of an import take no call away, unless one of them has the path of
the file, and if they only repeat paths they change nothing. -/
theorem keeps_of_ofSource {path : SourcePath} {more : List Catalog}
    (hmore : ∀ g ∈ more, g.path.same path = false) (mode : Mode) (includes : List Catalog)
    (source : Source) (start : Nat) (stopped timeOver : Bool) :
    Import.Alike
        (fun file file' => List.Forall₂ (Chunk.Keeps mode includes) file.allChunks file'.allChunks)
        (ofSource { mode, includes, timeOver } path source start stopped).result
        (ofSource { mode, includes := includes ++ more, timeOver } path source start
          stopped).result ∧
      ((∀ g ∈ more, ∃ f ∈ includes, f.path.same g.path = true) →
        ofSource { mode, includes := includes ++ more, timeOver } path source start stopped =
          ofSource { mode, includes, timeOver } path source start stopped) := by
  have hunseen : Import.Unseen .declarations { mode, includes, timeOver }
      { mode, includes := includes ++ more, timeOver } := ⟨rfl, fun _ => rfl⟩
  obtain ⟨extra, hextra⟩ := exists_firstFiles_append includes more
  constructor
  · refine alike_of_unseen hunseen path source start stopped fun file file' hpath h h' hfile => ?_
    have hoffers : Import.Offers file.path { mode, includes, timeOver }
        { mode, includes := includes ++ more, timeOver } := by
      refine ⟨.rfl, fun _ hequate => hequate, fun f hf => ?_, fun hown => ?_⟩
      · rw [hextra]
        exact List.mem_append_left _ hf
      · rw [List.any_append, hown, Bool.false_or, List.any_eq_false]
        intro g hg
        rw [hpath, hmore g hg]
        exact Bool.false_ne_true
    refine forall₂_of_through hfile fun c hc c' hc' hsame => ⟨hsame, fun i hi => ?_⟩
    obtain ⟨code, hcall, hback⟩ := h.exists_code h' hoffers hc hc' hsame hi
    obtain ⟨i', hcall', hrenews⟩ := Invocation.exists_parse? hoffers.mode
      (fun _ ha => exists_candidate hoffers hfile c.position ha) hcall
    refine ⟨i', hback i' hcall', hrenews, fun hincluded => ?_⟩
    obtain ⟨f, hf, hcallee⟩ := hincluded
    -- The macros of the includes come first in both lists of candidates.
    have hmem : i.callee ∈ (firstFiles includes).flatMap
        (·.chunks.toList.filterMap Chunk.definition?) :=
      List.mem_flatMap.mpr ⟨f, hf, ChunkSet.filterMap_eq .. ▸ hcallee⟩
    rw [candidatesAt] at hcall hcall'
    rw [hextra, List.flatMap_append, List.append_assoc] at hcall'
    exact Invocation.parse?_append hmem hcall hcall'
  · intro hrepeat
    have hsees : Import.SeesAs { mode, includes := includes ++ more, timeOver }
        { mode, includes, timeOver } := ⟨rfl, rfl, visibleCatalogs_append hrepeat⟩
    exact hsees.ofSource_eq path source start stopped

/-- A file that defines the macro `m` with these parameters. -/
def definingFile (path : SourcePath) (parameters : List Text) : Catalog :=
  Catalog.add { path } ⟨path, 0, 0, 16, .macroDef ⟨['m'], parameters, [], true⟩⟩

/-- The macro `n` and calls of it and of `m`. -/
def callingBothSource : Bytes :=
  Utf8.encode
    ['n', ' ', 'm', 'a', 'c', 'r', 'o', '\n', '\t', 'e', 'n', 'd', 'm', '\n', '\t', 'm', ' ', '1',
      '\n', '\t', 'n', '\n']

theorem keeps_of_ofSource_definingFile :
    Import.Alike
        (fun file file' => List.Forall₂ (Chunk.Keeps .legacy [definingFile ⟨['i']⟩ [['x']]])
          file.allChunks file'.allChunks)
        (ofSource { includes := [definingFile ⟨['i']⟩ [['x']]] } ⟨['a']⟩
          (.ofBytes callingBothSource) 0 false).result
        (ofSource { includes := [definingFile ⟨['i']⟩ [['x']], definingFile ⟨['j']⟩ []] } ⟨['a']⟩
          (.ofBytes callingBothSource) 0 false).result ∧
      ofSource { includes := [definingFile ⟨['i']⟩ [['x']], definingFile ⟨['i', '/']⟩ []] } ⟨['a']⟩
          (.ofBytes callingBothSource) 0 false =
        ofSource { includes := [definingFile ⟨['i']⟩ [['x']]] } ⟨['a']⟩
          (.ofBytes callingBothSource) 0 false ∧
      (ofSource { includes := [definingFile ⟨['i']⟩ [['x']]] } ⟨['a']⟩
          (.ofBytes callingBothSource) 0 false).result.toOption.map
            (fun file => file.invocations.map (·.callee.name)) = some [['m'], ['n']] := by
  refine ⟨?_, ?_, by decide +kernel⟩
  · exact (@keeps_of_ofSource ⟨['a']⟩ [definingFile ⟨['j']⟩ []] (by decide +kernel) .legacy
      [definingFile ⟨['i']⟩ [['x']]] (.ofBytes callingBothSource) 0 false false).1
  · exact (@keeps_of_ofSource ⟨['a']⟩ [definingFile ⟨['i', '/']⟩ []] (by decide +kernel) .legacy
      [definingFile ⟨['i']⟩ [['x']]] (.ofBytes callingBothSource) 0 false false).2
        (by decide +kernel)

end Catalog

end AsmCatalog
