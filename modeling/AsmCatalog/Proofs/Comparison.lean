/-
Two imports of one source, line by line.

Imports whose settings differ cut a source into the same chunks, and what a statement is
follows from the finished file.  So two imports can be compared without running them side by
side once more: their files have the same chunks through a view, and every statement is told
from its text, its mode and its candidates.

Main definitions:
* `Import.Alike` — two imports fail alike, or their files are related;
* `codeOf` — the code of a statement line;
* `Chunk.invocation?`, `Invocation.contents` — the call that a chunk is, and what it passes;
* `Catalog.ReadBy` — the statements and the constants of a file, told from its chunks;
* `Mode.AtMost` — legacy mode comes before strict mode;
* `Import.Offers` — settings that take no call away.

Main statements:
* `Catalog.readBy_of_ofSource` — every import gives a file that is told so;
* `Catalog.exists_parse` — what a statement line of reliable bytes is;
* `Catalog.alike_of_unseen` — two imports are alike as soon as files with the same chunks
  through a view are related;
* `Invocation.exists_parse?` — what is a call remains one where the candidates have all the
  names that they had;
* `Catalog.exists_candidate`, `Catalog.ReadBy.exists_code` — what the same line of another
  file can call, and that it is a call there if its code is one.
-/
import AsmCatalog.Proofs.Declaration
import AsmCatalog.Proofs.LineCoverage
import AsmCatalog.Proofs.Segmentation
import AsmCatalog.Proofs.Visibility
import Mathlib.Data.List.Forall2

namespace AsmCatalog

/-! ### Trees through a view -/

namespace Chunk

variable (v : View)

theorem statement?_through (c : Chunk) :
    (c.through v).statement? = c.statement?.map fun s => { s with form := s.form.bind v.form } := by
  rw [through_eq]
  obtain ⟨path, position, line, length, content⟩ := c
  cases content <;> rfl

theorem definition?_through (c : Chunk) :
    (c.through v).definition? = c.definition?.map fun m =>
      { m with
        parameters := v.parameters m.parameters
        body := m.body.map (Option.map (through v)) } := by
  rw [through_eq]
  obtain ⟨path, position, line, length, content⟩ := c
  cases content <;> rfl

/-- The chunks inside a chunk are the same through a view. -/
theorem all_through (c : Chunk) : (c.through v).all = c.all.map (through v) := by
  induction c using Chunk.induction with
  | step c ih =>
    have hpresent : ∀ entries : List (Option Chunk),
        present (entries.map (Option.map (through v))) = (present entries).map (through v) := by
      intro entries
      simp only [present, List.filterMap_map, List.map_filterMap]
      exact List.filterMap_congr fun e _ => rfl
    rw [all_eq, all_eq, body_through, hpresent, List.map_cons, List.flatMap_map,
      List.map_flatMap]
    refine congrArg _ (List.flatMap_congr fun d hd => ?_)
    exact ih d (mem_present.mp hd)

variable {v} {c c' : Chunk}

/-- Chunks that look the same stand at the same place. -/
theorem place_of_through (h : c.through v = c'.through v) :
    c.path = c'.path ∧ c.position = c'.position ∧ c.line = c'.line ∧ c.length = c'.length := by
  rw [through_eq, through_eq] at h
  obtain ⟨hpath, hposition, hline, hlength, -⟩ := Chunk.mk.inj h
  exact ⟨hpath, hposition, hline, hlength⟩

/-- Where one is a statement the other one is, and they have one text. -/
theorem statement?_of_through (h : c.through v = c'.through v) :
    (c.statement? = none ∧ c'.statement? = none) ∨
      ∃ s s', c.statement? = some s ∧ c'.statement? = some s' ∧ s.text = s'.text := by
  have hsame := congrArg statement? h
  rw [statement?_through, statement?_through] at hsame
  cases hc : c.statement? with
  | none =>
    rw [hc, Option.map_none] at hsame
    exact Or.inl ⟨rfl, Option.map_eq_none_iff.mp hsame.symm⟩
  | some s =>
    rw [hc, Option.map_some] at hsame
    obtain ⟨s', hc', hsame⟩ := Option.map_eq_some_iff.mp hsame.symm
    exact Or.inr ⟨s, s', rfl, hc', (congrArg Statement.text hsame).symm⟩

end Chunk

namespace Catalog

variable {v : View} {file file' : Catalog}

theorem allChunks_through (v : View) (file : Catalog) :
    (file.through v).allChunks = file.allChunks.map (Chunk.through v) := by
  have hlist : (file.through v).chunks.toList = file.chunks.toList.map (Chunk.through v) :=
    List.map_reverse.symm
  rw [allChunks, allChunks, hlist, List.flatMap_map, List.map_flatMap]
  exact List.flatMap_congr fun c _ => c.all_through v

theorem path_of_through (h : file.through v = file'.through v) : file.path = file'.path :=
  (Catalog.mk.inj h).1

theorem toList_of_through (h : file.through v = file'.through v) :
    file.chunks.toList.map (Chunk.through v) = file'.chunks.toList.map (Chunk.through v) := by
  have hdescending := congrArg (fun f : Catalog => f.chunks.descending) h
  have hdescending : file.chunks.descending.map (Chunk.through v) =
      file'.chunks.descending.map (Chunk.through v) := hdescending
  rw [ChunkSet.toList, ChunkSet.toList, List.map_reverse, List.map_reverse, hdescending]

/-- The chunks of files that look the same are the same, one by one. -/
theorem forall₂_of_through {R : Chunk → Chunk → Prop} (h : file.through v = file'.through v)
    (hR : ∀ c ∈ file.allChunks, ∀ c' ∈ file'.allChunks, c.through v = c'.through v → R c c') :
    List.Forall₂ R file.allChunks file'.allChunks := by
  have hsame : file.allChunks.map (Chunk.through v) = file'.allChunks.map (Chunk.through v) := by
    rw [← allChunks_through, ← allChunks_through, h]
  have hpairs : List.Forall₂ (fun c c' : Chunk => c.through v = c'.through v)
      file.allChunks file'.allChunks := by
    have hequal := List.forall₂_eq_eq_eq.symm ▸ hsame
    exact List.forall₂_map_right_iff.mp (List.forall₂_map_left_iff.mp hequal)
  obtain ⟨hlength, hzip⟩ := List.forall₂_iff_zip.mp hpairs
  refine List.forall₂_iff_zip.mpr ⟨hlength, fun {c c'} hc => ?_⟩
  obtain ⟨hmem, hmem'⟩ := List.of_mem_zip hc
  exact hR c hmem c' hmem' (hzip hc)

/-- The macros that a file offers to a line at the offset `p` have the same names. -/
theorem names_of_through (h : file.through v = file'.through v) (p : Nat) :
    ((file.chunks.toList.filter (·.stop ≤ p)).filterMap Chunk.definition?).map (·.name) =
      ((file'.chunks.toList.filter (·.stop ≤ p)).filterMap Chunk.definition?).map (·.name) := by
  -- The name and the end of a chunk can be seen.
  have hlook : ∀ chunks : List Chunk,
      ((chunks.filter (·.stop ≤ p)).filterMap Chunk.definition?).map (·.name) =
        (((chunks.map (Chunk.through v)).filter (·.stop ≤ p)).filterMap Chunk.definition?).map
          (·.name) := by
    intro chunks
    rw [List.filter_map, List.filterMap_map, List.map_filterMap, List.map_filterMap]
    have hstop : (fun c : Chunk => decide (c.stop ≤ p)) ∘ Chunk.through v =
        fun c => decide (c.stop ≤ p) := by
      funext c
      rw [Function.comp_apply, Chunk.through_eq]
      rfl
    rw [hstop]
    refine List.filterMap_congr fun c _ => ?_
    rw [Function.comp_apply, Chunk.definition?_through, Option.map_map]
    rfl
  rw [hlook, toList_of_through h, ← hlook]

end Catalog

/-! ### What a statement is -/

/-- The code of a statement line: neither its comment nor its label. -/
def codeOf (text : Text) : Text := (dotLabel (withoutComment text)).2

/-- What a call passes, in order. -/
def Invocation.contents {β : Type} (i : Invocation β) : List Text := i.arguments.map (·.content)

/-- The call that a chunk is. -/
def Chunk.invocation? (c : Chunk) : Option (Invocation Chunk) :=
  c.statement?.bind Statement.invocation?

section Forms

variable {mode : Mode} {candidates : List (Macro Chunk)} {code : Text}

/-- Code is an equate if it is recognized as one. -/
theorem Form.bind_equate? :
    (Form.parse? mode candidates code).bind Form.equate? =
      if Text.isBlank code then none else Equate.parse? mode code := by
  rw [Form.parse?]
  split
  · rfl
  · cases Equate.parse? mode code with
    | some e => rfl
    | none => cases Invocation.parse? mode candidates code <;> rfl

/-- Code is a call if it is recognized as one and as no equate. -/
theorem Form.bind_invocation? {i : Invocation Chunk} :
    (Form.parse? mode candidates code).bind Form.invocation? = some i ↔
      Text.isBlank code = false ∧ Equate.parse? mode code = none ∧
        Invocation.parse? mode candidates code = some i := by
  rw [Form.parse?]
  cases Text.isBlank code with
  | true => simp
  | false =>
    cases Equate.parse? mode code with
    | some e => simp [Form.invocation?]
    | none => cases Invocation.parse? mode candidates code <;> simp [Form.invocation?]

end Forms

/-! ### The search for a macro -/

/-- A mode comes before another: legacy mode before strict mode. -/
def Mode.AtMost (mode mode' : Mode) : Prop := mode = .strict → mode' = .strict

theorem Mode.AtMost.rfl {mode : Mode} : mode.AtMost mode := id

section Search

variable {mode mode' : Mode} {candidates candidates' : List (Macro Chunk)} {name : Text}
  {m : Macro Chunk}

/-- A macro is found by its name: in legacy mode by this very name, and in strict mode up to
the case of the letters A to Z. -/
theorem name_of_resolveMacro? (h : resolveMacro? mode candidates name = some m) :
    Text.sameLetters m.name name = true ∧ (mode = .legacy → m.name = name) := by
  cases mode with
  | legacy =>
    rw [resolveMacro?.eq_1] at h
    split at h
    · have hname : m.name = name := by simpa using List.find?_some h
      exact ⟨by rw [hname, Text.sameLetters, beq_self_eq_true], fun _ => hname⟩
    · exact absurd h (by simp)
  | strict =>
    have hfind : candidates.find? (Text.sameLetters ·.name name) = some m := h
    have hname : Text.sameLetters m.name name = true := by simpa using List.find?_some hfind
    exact ⟨hname, fun hmode => absurd hmode (by simp)⟩

/-- What is found among some candidates is found, in this mode or in strict mode, where all
their names occur. -/
theorem exists_resolveMacro? (hmode : mode.AtMost mode')
    (hnames : ∀ a ∈ candidates, ∃ b ∈ candidates', b.name = a.name)
    (h : resolveMacro? mode candidates name = some m) :
    ∃ m', resolveMacro? mode' candidates' name = some m' := by
  obtain ⟨hletters, hexact⟩ := name_of_resolveMacro? h
  obtain ⟨b, hb, hbname⟩ := hnames m (mem_of_resolveMacro? h)
  rw [← hbname] at hletters hexact
  rw [← Option.isSome_iff_exists]
  cases mode' with
  | strict =>
    show (candidates'.find? (Text.sameLetters ·.name name)).isSome
    exact List.find?_isSome.mpr ⟨b, hb, hletters⟩
  | legacy =>
    obtain rfl : mode = .legacy := by
      cases mode with
      | legacy => rfl
      | strict => exact absurd (hmode rfl) (by simp)
    -- Some candidate has the name in lower case, and still one does.
    rw [resolveMacro?.eq_1] at h ⊢
    split at h
    · rename_i hlowered
      obtain ⟨a, ha, halowered⟩ := List.any_eq_true.mp hlowered
      obtain ⟨a', ha', haname⟩ := hnames a ha
      rw [if_pos (List.any_eq_true.mpr ⟨a', ha', by rw [haname]; exact halowered⟩)]
      exact List.find?_isSome.mpr ⟨b, hb, by simpa using hexact rfl⟩
    · exact absurd h (by simp)

end Search

section Calls

variable {mode mode' : Mode} {candidates candidates' : List (Macro Chunk)} {code : Text}
  {i : Invocation Chunk}

/-- The call of a macro by some code. -/
def Invocation.of (callee : Macro Chunk) (code : Text) : Invocation Chunk :=
  match (Text.trim code).dropWhile (· ≠ ' ') with
  | [] => ⟨callee, []⟩
  | _ :: text => ⟨callee, nameArguments callee.parameters (splitArguments text)⟩

theorem Invocation.parse?_eq :
    Invocation.parse? mode candidates code =
      (resolveMacro? mode candidates ((Text.trim code).takeWhile (· ≠ ' '))).map (.of · code) :=
  rfl

@[simp] theorem Invocation.callee_of (callee : Macro Chunk) (code : Text) :
    (Invocation.of callee code).callee = callee := by
  rw [Invocation.of]
  split <;> rfl

/-- What a call passes does not depend on the macro that is called. -/
theorem Invocation.contents_of (callee callee' : Macro Chunk) (code : Text) :
    (Invocation.of callee code).contents = (Invocation.of callee' code).contents := by
  have hnamed : ∀ parameters texts : List Text,
      (nameArguments parameters texts).map (·.content) = texts := by
    intro parameters texts
    rw [nameArguments, List.mapIdx_eq_zipIdx_map, List.map_map]
    exact List.zipIdx_map_fst 0 texts
  rw [Invocation.of, Invocation.of]
  split
  · rfl
  · exact (hnamed _ _).trans (hnamed _ _).symm

/-- The call `i'` passes what the call `i` does, to a macro of the same name. -/
structure Invocation.Renews (mode : Mode) (i i' : Invocation Chunk) : Prop where
  contents : i'.contents = i.contents
  letters : Text.sameLetters i'.callee.name i.callee.name = true
  name : mode = .legacy → i'.callee.name = i.callee.name

/-- A call remains one, in this mode or in strict mode, where all names of the candidates
occur. -/
theorem Invocation.exists_parse? (hmode : mode.AtMost mode')
    (hnames : ∀ a ∈ candidates, ∃ b ∈ candidates', b.name = a.name)
    (h : Invocation.parse? mode candidates code = some i) :
    ∃ i', Invocation.parse? mode' candidates' code = some i' ∧ i.Renews mode' i' := by
  rw [parse?_eq] at h ⊢
  obtain ⟨m, hm, rfl⟩ := Option.map_eq_some_iff.mp h
  obtain ⟨m', hm'⟩ := exists_resolveMacro? hmode hnames hm
  obtain ⟨hletters, hexact⟩ := name_of_resolveMacro? hm
  obtain ⟨hletters', hexact'⟩ := name_of_resolveMacro? hm'
  refine ⟨.of m' code, by rw [hm', Option.map_some], contents_of _ _ _, ?_, fun hlegacy => ?_⟩
  · rw [callee_of, callee_of, Text.sameLetters, beq_iff_eq]
    simp only [Text.sameLetters, beq_iff_eq] at hletters hletters'
    exact hletters'.trans hletters.symm
  · have hmode' : mode = .legacy := by
      cases mode with
      | legacy => rfl
      | strict => exact absurd ((hmode rfl).symm.trans hlegacy) (by simp)
    rw [callee_of, callee_of, hexact' hlegacy, hexact hmode']

end Calls

/-! ### Finished files -/

namespace Catalog

/-- What the statements and the constants of a file are, told from its chunks. -/
structure ReadBy (file : Catalog) (settings : Import.Settings) : Prop where
  /-- A statement is what its code is among its candidates. -/
  form : ∀ c ∈ file.allChunks, ∀ s, c.statement? = some s →
    s.form = Form.parse? settings.mode (file.candidatesAt settings.includes c.position)
      (codeOf s.text)
  /-- The constants are the equates. -/
  constants : file.constants = file.allChunks.filterMap Constant.ofChunk?
  /-- The chunks come line by line. -/
  above : file.allChunks.Pairwise Chunk.Above

variable {settings : Import.Settings} {path : SourcePath} {source : Source} {start : Nat}
  {stopped : Bool} {file : Catalog}

theorem path_of_ofSource (h : (ofSource settings path source start stopped).result = .ok file) :
    file.path = path := by
  obtain ⟨entries, g, hscan, rfl⟩ := exists_scans h
  exact hscan.leads.path

theorem readBy_of_ofSource
    (h : (ofSource settings path source start stopped).result = .ok file) :
    file.ReadBy settings := by
  have hparsed : ∀ c ∈ file.allChunks, ∀ s, c.content = .statement s → ∃ text, s =
      .parse settings.mode (file.candidatesAt settings.includes c.position) text :=
    fun _ hc _ hs => parse_of_ofSource h hc hs
  obtain ⟨entries, g, hscan, rfl, hchunks⟩ := exists_entries h
  have hall : g.catalog.allChunks = (present entries).flatMap Chunk.all := by
    rw [allChunks, hchunks]
  refine ⟨fun c hc s hs => ?_, ?_, hall ▸ hscan.ascending⟩
  · have hcontent : c.content = .statement s := by
      obtain ⟨path, position, line, length, content⟩ := c
      cases content with
      | statement s' => exact congrArg _ (Option.some.inj hs)
      | comment text => exact absurd hs (by simp [Chunk.statement?])
      | macroDef m => exact absurd hs (by simp [Chunk.statement?])
    obtain ⟨text, rfl⟩ := hparsed c hc s hcontent
    rfl
  · rw [hall]
    exact (hscan.declares fun _ hk => absurd hk List.not_mem_nil).1

/-- A statement line with something on it is what it is among its candidates. -/
theorem exists_parse {mode : Mode} {includes : List Catalog} {bytes : Bytes} {l : PhysicalLine}
    (h : (ofSource { mode, includes } path (.ofBytes bytes) start false).result = .ok file)
    (hl : l ∈ physicalLines bytes start) (hkind : l.kind = .statement)
    (hblank : l.isBlank = false) : ∃ chunk,
      file.allChunks.filter (·.line = l.number) = [chunk] ∧ chunk.position = l.position ∧
      chunk.content =
        .statement (.parse mode (file.candidatesAt includes l.position) l.text) := by
  obtain ⟨found, chunk, hfound, hchunk, hof⟩ := exists_isOf_ofBytes path mode includes hl hblank
  obtain rfl : file = found := Except.ok.inj (h.symm.trans hfound)
  have hmem : chunk ∈ file.allChunks :=
    List.mem_of_mem_filter (hchunk ▸ List.mem_singleton_self chunk)
  have hstatement := hof.kind.trans hkind
  have hcontent := hof.content
  refine ⟨chunk, hchunk, hof.position, ?_⟩
  rw [Chunk.kind] at hstatement
  split at hstatement
  · exact absurd hstatement (by simp)
  · rename_i s hs
    rw [hs] at hcontent
    obtain ⟨text, rfl⟩ := parse_of_ofSource h hmem hs
    have htext : text = l.text := hcontent
    rw [hs, htext, hof.position]
  · exact absurd hstatement (by simp)

namespace ReadBy

variable {x : Import.Settings} {c : Chunk}

/-- The equate that a chunk of the file is. -/
theorem equate? (h : file.ReadBy x) (hc : c ∈ file.allChunks) :
    c.equate? = c.statement?.bind fun s =>
      if Text.isBlank (codeOf s.text) then none else Equate.parse? x.mode (codeOf s.text) := by
  rw [Chunk.equate?]
  cases hs : c.statement? with
  | none => rfl
  | some s =>
    rw [Option.bind_some, Option.bind_some, Statement.equate?, h.form c hc s hs]
    exact Form.bind_equate?

/-- The call that a chunk of the file is. -/
theorem invocation? (h : file.ReadBy x) (hc : c ∈ file.allChunks) {i : Invocation Chunk} :
    c.invocation? = some i ↔ ∃ s, c.statement? = some s ∧
      Text.isBlank (codeOf s.text) = false ∧ Equate.parse? x.mode (codeOf s.text) = none ∧
      Invocation.parse? x.mode (file.candidatesAt x.includes c.position) (codeOf s.text) =
        some i := by
  rw [Chunk.invocation?, Option.bind_eq_some_iff]
  refine exists_congr fun s => and_congr_right fun hs => ?_
  rw [Statement.invocation?, h.form c hc s hs]
  exact Form.bind_invocation?

end ReadBy

end Catalog

/-! ### Settings that take no call away -/

/-- With the settings `x'` a line of the file at `path` sees a macro of every name that it
sees with the settings `x`, and code that was no equate is none. -/
structure Import.Offers (path : SourcePath) (x x' : Settings) : Prop where
  mode : x.mode.AtMost x'.mode
  equate : ∀ code, Equate.parse? x.mode code = none → Equate.parse? x'.mode code = none
  first : ∀ f ∈ firstFiles x.includes, f ∈ firstFiles x'.includes
  own : x.includes.any (·.path.same path) = false → x'.includes.any (·.path.same path) = false

namespace Catalog

variable {v : View} {x x' : Import.Settings} {file file' : Catalog}

/-- What a line can call has a namesake that it can still call. -/
theorem exists_candidate (hoffers : Import.Offers file.path x x')
    (hfile : file.through v = file'.through v) (p : Nat) {a : Macro Chunk}
    (ha : a ∈ file.candidatesAt x.includes p) :
    ∃ b ∈ file'.candidatesAt x'.includes p, b.name = a.name := by
  rw [candidatesAt, List.mem_append] at ha
  rcases ha with ha | ha
  · obtain ⟨f, hf, ha⟩ := List.mem_flatMap.mp ha
    exact ⟨a, List.mem_append_left _ (List.mem_flatMap.mpr ⟨f, hoffers.first f hf, ha⟩), rfl⟩
  · split at ha
    · exact absurd ha List.not_mem_nil
    · rename_i hother
      have hother' := hoffers.own (Bool.not_eq_true _ ▸ hother)
      have hname := names_of_through hfile p ▸ List.mem_map_of_mem ha
      obtain ⟨b, hb, hname⟩ := List.mem_map.mp hname
      refine ⟨b, List.mem_append_right _ ?_, hname⟩
      rw [← path_of_through hfile, if_neg (by rw [hother']; exact Bool.false_ne_true)]
      exact hb

/-- The line of a call has some code, and where this code is a call in the other file, the
line is one there. -/
theorem ReadBy.exists_code (h : file.ReadBy x) (h' : file'.ReadBy x')
    (hoffers : Import.Offers file.path x x') {c c' : Chunk} (hc : c ∈ file.allChunks)
    (hc' : c' ∈ file'.allChunks) (hsame : c.through v = c'.through v) {i : Invocation Chunk}
    (hi : c.invocation? = some i) :
    ∃ code, Invocation.parse? x.mode (file.candidatesAt x.includes c.position) code = some i ∧
      ∀ i', Invocation.parse? x'.mode (file'.candidatesAt x'.includes c.position) code = some i' →
        c'.invocation? = some i' := by
  obtain ⟨s, hs, hblank, hequate, hcall⟩ := (h.invocation? hc).mp hi
  rcases Chunk.statement?_of_through hsame with ⟨hnone, -⟩ | ⟨s₀, s', hs₀, hs', htext⟩
  · rw [hs] at hnone
    exact absurd hnone (by simp)
  · obtain rfl : s = s₀ := Option.some.inj (hs.symm.trans hs₀)
    refine ⟨codeOf s.text, hcall, fun i' hcall' => (h'.invocation? hc').mpr ⟨s', hs', ?_⟩⟩
    rw [← htext, ← (Chunk.place_of_through hsame).2.1]
    exact ⟨hblank, hoffers.equate _ hequate, hcall'⟩

end Catalog

/-! ### Two imports -/

/-- Two imports fail for the same reason, or both give a file and the files are related. -/
inductive Import.Alike (R : Catalog → Catalog → Prop) :
    Except ImportError Catalog → Except ImportError Catalog → Prop where
  | error (e : ImportError) : Alike R (.error e) (.error e)
  | ok {file file' : Catalog} (h : R file file') : Alike R (.ok file) (.ok file')

/-- Two imports are alike if files that look the same through a view are related, where the
view hides the difference between the settings. -/
theorem Catalog.alike_of_unseen {v : View} {x x' : Import.Settings} (h : Import.Unseen v x x')
    (path : SourcePath) (source : Source) (start : Nat) (stopped : Bool)
    {R : Catalog → Catalog → Prop}
    (hR : ∀ file file' : Catalog, file.path = path → file.ReadBy x → file'.ReadBy x' →
      file.through v = file'.through v → R file file') :
    Import.Alike R (ofSource x path source start stopped).result
      (ofSource x' path source start stopped).result := by
  have hsame := through_ofSource_of_unseen h path source start stopped
  cases hx : (ofSource x path source start stopped).result with
  | error e =>
    cases hx' : (ofSource x' path source start stopped).result with
    | error e' =>
      rw [hx, hx'] at hsame
      obtain rfl : e = e' := Except.error.inj hsame
      exact .error e
    | ok file' =>
      rw [hx, hx'] at hsame
      exact absurd hsame (by simp [Except.map])
  | ok file =>
    cases hx' : (ofSource x' path source start stopped).result with
    | error e' =>
      rw [hx, hx'] at hsame
      exact absurd hsame (by simp [Except.map])
    | ok file' =>
      rw [hx, hx'] at hsame
      exact .ok (hR file file' (path_of_ofSource hx) (readBy_of_ofSource hx)
        (readBy_of_ofSource hx') (Except.ok.inj hsame))

end AsmCatalog
