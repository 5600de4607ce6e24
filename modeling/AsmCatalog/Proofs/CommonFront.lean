/-
Two sources that begin alike.

Lines are grouped into definitions as they come, and no line changes how those before it have
been grouped.  So as far as two sources have the same lines, the same definitions have come to
their ends, and the next line can call the same macros in both.

Main definitions:
* `BodyOutline.Front` — how the bodies of two sources go on behind their common lines;
* `definedBy` — the macros of the chunks that end at an offset or before it.

Main statements:
* `BodyOutline.front` — a body ends within the common lines in both sources, or in neither;
* `FileOutline.definedBy_eq` — the same macros are defined by the end of the common lines;
* `LaidOut.exists_front` — sources with the same bytes up to a line have the same lines before it;
* `Catalog.candidatesAt_eq_of_front` — the line can call the same macros in both.
-/
import AsmCatalog.Proofs.Visibility

namespace AsmCatalog

/-! ### Grouping common lines -/

section Grouping

variable {common more more' lines left left' : List PhysicalLine} {o o' : Outline}
  {ended ended' : Bool}

theorem BodyOutline.lines_ne_nil (h : BodyOutline lines o ended left) (hlines : lines ≠ []) :
    o.lines ≠ [] := by
  cases h with
  | nil => exact absurd rfl hlines
  | _ => exact List.cons_ne_nil _ _

/-- How the bodies `o` and `o'` in two sources that begin with common lines relate to these. -/
inductive BodyOutline.Front (common more more' : List PhysicalLine) (o : Outline)
    (ended : Bool) (left : List PhysicalLine) (o' : Outline) (ended' : Bool)
    (left' : List PhysicalLine) : Prop where
  /-- They end within the common lines, and are the same. -/
  | within (between : List PhysicalLine) (body : common = o.lines ++ between) (outline : o' = o)
      (ends : ended' = ended) (left_eq : left = between ++ more)
      (left_eq' : left' = between ++ more')
  /-- They go on behind the common lines. -/
  | beyond (length : common.length < o.lines.length) (length' : common.length < o'.lines.length)

theorem BodyOutline.Front.start (ho : o.lines ≠ []) (ho' : o'.lines ≠ []) :
    Front [] more more' o ended left o' ended' left' :=
  .beyond (List.length_pos_iff.mpr ho) (List.length_pos_iff.mpr ho')

/-- A body ends within the common lines of two sources in both of them, or in neither. -/
theorem BodyOutline.front (hmore : more ≠ []) (hmore' : more' ≠ [])
    (h : BodyOutline lines o ended left) (hlines : lines = common ++ more)
    (h' : BodyOutline (common ++ more') o' ended' left') :
    Front common more more' o ended left o' ended' left' := by
  -- A common line tells by itself which constructor both derivations have.
  induction h generalizing common o' ended' left' with
  | nil => exact absurd (List.append_eq_nil_iff.mp hlines.symm).2 hmore
  | @lastLine l rest hkind hends =>
    cases common with
    | nil => exact .start (List.cons_ne_nil _ _) (h'.lines_ne_nil hmore')
    | cons l' common =>
      obtain ⟨rfl, rfl⟩ := List.cons.inj hlines
      cases h' with
      | lastLine => exact .within common rfl rfl rfl rfl rfl
      | line _ hends' => exact absurd (hends.symm.trans hends') (by simp)
      | lastDefinition hkind' => exact absurd hkind' hkind
      | definition hkind' => exact absurd hkind' hkind
  | @line l rest left next ended hkind hends hnext ih =>
    cases common with
    | nil => exact .start (List.cons_ne_nil _ _) (h'.lines_ne_nil hmore')
    | cons l' common =>
      obtain ⟨rfl, rfl⟩ := List.cons.inj hlines
      cases h' with
      | lastLine _ hends' => exact absurd (hends'.symm.trans hends) (by simp)
      | line _ _ hnext' =>
        rcases ih rfl hnext' with ⟨between, rfl, rfl, rfl, rfl, rfl⟩ | ⟨hlen, hlen'⟩
        · exact .within between rfl rfl rfl rfl rfl
        · exact .beyond (Nat.succ_lt_succ hlen) (Nat.succ_lt_succ hlen')
      | lastDefinition hkind' => exact absurd hkind' hkind
      | definition hkind' => exact absurd hkind' hkind
  | @lastDefinition h rest left body ended hkind hends hbody ih =>
    cases common with
    | nil => exact .start (List.cons_ne_nil _ _) (h'.lines_ne_nil hmore')
    | cons l' common =>
      obtain ⟨rfl, rfl⟩ := List.cons.inj hlines
      cases h' with
      | lastLine hkind' => exact absurd hkind hkind'
      | line hkind' => exact absurd hkind hkind'
      | lastDefinition _ _ hbody' =>
        rcases ih rfl hbody' with ⟨between, rfl, rfl, rfl, rfl, rfl⟩ | ⟨hlen, hlen'⟩
        · exact .within between (by simp [Outline.lines]) rfl rfl rfl rfl
        · refine .beyond ?_ ?_
          · simpa [Outline.lines] using hlen
          · simpa [Outline.lines] using hlen'
      | definition _ hends' => exact absurd (hends.symm.trans hends') (by simp)
  | @definition h rest between left body next ended ended₁ hkind hends hbody hnext ihb ihn =>
    cases common with
    | nil => exact .start (List.cons_ne_nil _ _) (h'.lines_ne_nil hmore')
    | cons l' common =>
      obtain ⟨rfl, rfl⟩ := List.cons.inj hlines
      cases h' with
      | lastLine hkind' => exact absurd hkind hkind'
      | line hkind' => exact absurd hkind hkind'
      | lastDefinition _ hends' => exact absurd (hends'.symm.trans hends) (by simp)
      | definition _ _ hbody' hnext' =>
        -- The lines behind the nested body have a common front only if that body ends in it.
        rcases ihb rfl hbody' with ⟨inner, rfl, rfl, rfl, rfl, rfl⟩ | ⟨hlen, hlen'⟩
        · rcases ihn rfl hnext' with ⟨outer, rfl, rfl, rfl, rfl, rfl⟩ | ⟨hlen, hlen'⟩
          · exact .within outer (by simp [Outline.lines]) rfl rfl rfl rfl
          · refine .beyond ?_ ?_
            · simpa [Outline.lines] using hlen
            · simpa [Outline.lines] using hlen'
        · refine .beyond ?_ ?_
          · simp only [Outline.lines, List.length_cons, List.length_append]
            omega
          · simp only [Outline.lines, List.length_cons, List.length_append]
            omega

end Grouping

/-! ### Definitions in common lines -/

section Definitions

variable {common more more' lines : List PhysicalLine} {o o' : Outline} {bytes bytes' : Bytes}
  {position : Nat} {number : Int} {found : List Chunk}

/-- Lines that stand in a source have bytes. -/
theorem LaidOut.extent_pos {lines : List PhysicalLine} (h : LaidOut bytes position number lines)
    (hne : lines ≠ []) : 0 < extent lines := by
  obtain ⟨l, hl⟩ := List.exists_mem_of_ne_nil lines hne
  have := h.within hl
  omega

/-- The macros of the chunks that end at the offset `p` or before it. -/
def definedBy (p : Nat) (chunks : List Chunk) : List (Macro Chunk) :=
  (chunks.filter (·.stop ≤ p)).filterMap Chunk.definition?

theorem definedBy_append (p : Nat) (a b : List Chunk) :
    definedBy p (a ++ b) = definedBy p a ++ definedBy p b := by
  rw [definedBy, List.filter_append, List.filterMap_append]
  rfl

theorem definedBy_entry (p : Nat) {l : PhysicalLine} (hkind : l.kind ≠ .macroDef)
    (x : LineContext) : definedBy p (l.entry x).toList = [] := by
  rw [definedBy, List.filterMap_eq_nil_iff]
  intro c hc
  have hentry : l.entry x = some c := Option.mem_toList.mp (List.mem_of_mem_filter hc)
  obtain ⟨-, -, -, hk⟩ := PhysicalLine.place_of_entry hkind hentry
  cases hd : c.definition? with
  | none => rfl
  | some m => exact absurd (hk.symm.trans (Chunk.kind_of_definition? hd)) hkind

/-- A definition that ends behind an offset is none of those that end by it. -/
theorem definedBy_definition? {p : Nat} {h : PhysicalLine} {body : Outline}
    (hp : p < h.stop + extent body.lines) (x : LineContext) :
    definedBy p (Outline.definition? x h body).toList = [] := by
  have hnone : (Outline.definition? x h body).toList.filter (·.stop ≤ p) = [] := by
    rw [List.filter_eq_nil_iff]
    intro c hc
    obtain ⟨header, -, rfl⟩ := Option.map_eq_some_iff.mp (Option.mem_toList.mp hc)
    rw [decide_eq_true_iff, PhysicalLine.definition_stop]
    exact Nat.not_le_of_lt hp
  rw [definedBy, hnone]
  rfl

/-- The lines from an offset on make nothing that ends by it, and define no macro there. -/
theorem Outline.definedBy_chunksBehind {p : Nat} (ho : o.Sound)
    (hlines : LaidOut bytes position number o.lines) (hp : p ≤ position) (f : FileContext)
    (found : List Chunk) : definedBy p (o.chunksBehind f found) = definedBy p found := by
  induction o generalizing position number found with
  | nil => rfl
  | line l next ih =>
    have hlt := hlines.found.position_lt_stop
    obtain ⟨rfl, -, hrest⟩ := hlines.first
    rw [chunksBehind, ih ho.2 hrest (by omega), definedBy_append, definedBy_entry p ho.1,
      List.append_nil]
  | definition h body ended next _ ih =>
    have hlt := hlines.found.position_lt_stop
    obtain ⟨rfl, -, hrest⟩ := hlines.first
    obtain ⟨-, hbehind⟩ := laidOut_append.mp hrest
    rw [chunksBehind, ih ho.2.2 hbehind (by omega), definedBy_append,
      definedBy_definition? (by omega), List.append_nil]

theorem Outline.definedBy_start (ho : o.Sound) (hlines : LaidOut bytes position number o.lines)
    (f : FileContext) (found : List Chunk) :
    definedBy (position + extent []) (o.chunksBehind f found) =
      definedBy (position + extent []) found :=
  definedBy_chunksBehind ho hlines (Nat.le_refl _) f found

/-- A definition that goes on behind some lines, and what comes behind it, define nothing by the
end of these lines. -/
theorem Outline.definedBy_definition {h : PhysicalLine} {body next : Outline} {ended : Bool}
    (ho : (definition h body ended next).Sound)
    (hlines : LaidOut bytes position number (definition h body ended next).lines)
    (hcommon : common <+: body.lines) (hlength : common.length < body.lines.length)
    (f : FileContext) :
    definedBy (position + extent (h :: common))
      ((definition h body ended next).chunksBehind f found) =
      definedBy (position + extent (h :: common)) found := by
  obtain ⟨rfl, -, hrest⟩ := hlines.first
  obtain ⟨hbody, hbehind⟩ := laidOut_append.mp hrest
  obtain ⟨further, hfurther⟩ := hcommon
  -- The body has a line that is none of the common ones, and this line has bytes.
  have hne : further ≠ [] := by
    rintro rfl
    rw [List.append_nil] at hfurther
    exact absurd hlength (by rw [hfurther]; exact Nat.lt_irrefl _)
  rw [← hfurther] at hbody
  have hpos := (laidOut_append.mp hbody).2.extent_pos hne
  have hextent : extent body.lines = extent common + extent further := by
    rw [← hfurther, extent_append]
  have hend : h.position + extent (h :: common) < h.stop + extent body.lines := by
    rw [extent_cons, PhysicalLine.stop, hextent]
    omega
  rw [chunksBehind, definedBy_chunksBehind ho.2.2 hbehind (Nat.le_of_lt hend), definedBy_append,
    definedBy_definition? hend, List.append_nil]

/-- By the end of their common lines two sources have defined the same macros. -/
theorem FileOutline.definedBy_eq (hmore : more ≠ []) (hmore' : more' ≠ [])
    (h : FileOutline lines o) (hall : lines = common ++ more)
    (h' : FileOutline (common ++ more') o') (hlines : LaidOut bytes position number o.lines)
    (hlines' : LaidOut bytes' position number o'.lines) (f : FileContext)
    (found : List Chunk) :
    definedBy (position + extent common) (o'.chunksBehind f found) =
      definedBy (position + extent common) (o.chunksBehind f found) := by
  induction h generalizing common o' position number found with
  | nil => exact absurd (List.append_eq_nil_iff.mp hall.symm).2 hmore
  | @line l rest next hkind hnext ih =>
    cases common with
    | nil =>
      rw [Outline.definedBy_start h'.sound hlines',
        Outline.definedBy_start (FileOutline.line hkind hnext).sound hlines]
    | cons l' common =>
      obtain ⟨rfl, rfl⟩ := List.cons.inj hall
      cases h' with
      | line _ hnext' =>
        obtain ⟨rfl, -, hrest⟩ := hlines.first
        obtain ⟨-, -, hrest'⟩ := hlines'.first
        have hsame := ih rfl hnext' hrest hrest' (found ++ (l.entry (f.behind found)).toList)
        rw [extent_cons, ← Nat.add_assoc]
        exact hsame
      | definition hkind' => exact absurd hkind' hkind
  | @definition h rest left body next ended hkind hbody hnext ih =>
    cases common with
    | nil =>
      rw [Outline.definedBy_start h'.sound hlines',
        Outline.definedBy_start (FileOutline.definition hkind hbody hnext).sound hlines]
    | cons l' common =>
      obtain ⟨rfl, rfl⟩ := List.cons.inj hall
      cases h' with
      | line hkind' => exact absurd hkind hkind'
      | @definition _ _ left' body' next' ended' _ hbody' hnext' =>
        rcases hbody.front hmore hmore' rfl hbody' with
          ⟨between, rfl, rfl, rfl, rfl, rfl⟩ | ⟨hlength, hlength'⟩
        · obtain ⟨rfl, -, hrest⟩ := hlines.first
          obtain ⟨-, -, hrest'⟩ := hlines'.first
          have hsame := ih rfl hnext' (laidOut_append.mp hrest).2 (laidOut_append.mp hrest').2
            (found ++ (Outline.definition? (f.behind found) h body').toList)
          rw [extent_cons, extent_append, ← Nat.add_assoc, ← Nat.add_assoc]
          exact hsame
        · have hcommon : common <+: body.lines :=
            List.prefix_of_prefix_length_le ⟨more, rfl⟩ ⟨left, hbody.lines_append⟩
              (Nat.le_of_lt hlength)
          have hcommon' : common <+: body'.lines :=
            List.prefix_of_prefix_length_le ⟨more', rfl⟩ ⟨left', hbody'.lines_append⟩
              (Nat.le_of_lt hlength')
          rw [Outline.definedBy_definition ⟨hkind, hbody.sound, hnext.sound⟩ hlines hcommon hlength,
            Outline.definedBy_definition ⟨hkind, hbody'.sound, hnext'.sound⟩ hlines' hcommon'
              hlength']

end Definitions

/-! ### Sources with the same bytes up to a line -/

/-- The line at an offset ends before a later line, and the bytes up to there tell it. -/
theorem throughNewline_drop_eq {bytes bytes' : Bytes} {q p : Nat} (hp : p < bytes.length)
    (hend : q + (throughNewline (bytes.drop q)).length ≤ p)
    (hsame : bytes'.take p = bytes.take p) :
    throughNewline (bytes'.drop q) = throughNewline (bytes.drop q) := by
  have hqp : q ≤ p := Nat.le_trans (Nat.le_add_right ..) hend
  have hcut : ∀ b : Bytes, b.drop q = (b.take p).drop q ++ b.drop p := by
    intro b
    rw [List.drop_take, ← Nat.add_sub_cancel' hqp, Nat.add_sub_cancel_left, ← List.drop_drop,
      List.take_append_drop]
  -- The line has its newline, for more bytes come behind it.
  have hnewline : newline ∈ (bytes.take p).drop q := by
    by_contra hnone
    rw [hcut bytes, throughNewline_append, if_neg hnone, List.length_append] at hend
    have hlength : ((bytes.take p).drop q).length = p - q := by
      rw [List.length_drop, List.length_take, Nat.min_eq_left (Nat.le_of_lt hp)]
    have hnil : throughNewline (bytes.drop p) = [] := List.length_eq_zero_iff.mp (by omega)
    rw [throughNewline_eq_nil, List.drop_eq_nil_iff] at hnil
    omega
  rw [hcut bytes', hcut bytes, hsame, throughNewline_append,
    throughNewline_append, if_pos hnewline, if_pos hnewline]

/-- Two sources with the same bytes up to a line have the same lines before it. -/
theorem LaidOut.exists_front {bytes bytes' : Bytes} {position : Nat} {number : Int}
    {lines lines' : List PhysicalLine} {l l' : PhysicalLine}
    (h : LaidOut bytes position number lines) (h' : LaidOut bytes' position number lines')
    (hl : l ∈ lines) (hl' : l' ∈ lines') (hposition : l'.position = l.position)
    (hsame : bytes'.take l.position = bytes.take l.position) :
    ∃ common more more', lines = common ++ l :: more ∧ lines' = common ++ l' :: more' ∧
      l.position = position + extent common := by
  induction lines generalizing lines' position number with
  | nil => exact absurd hl List.not_mem_nil
  | cons first rest ih =>
    cases lines' with
    | nil => exact absurd hl' List.not_mem_nil
    | cons first' rest' =>
      have hlt := h.found.position_lt_stop
      have hlt' := h'.found.position_lt_stop
      obtain ⟨hstart, -, hrest⟩ := h.first
      obtain ⟨hstart', -, hrest'⟩ := h'.first
      rcases List.mem_cons.mp hl with rfl | hlater
      · rcases List.mem_cons.mp hl' with rfl | hlater'
        · exact ⟨[], rest, rest', rfl, rfl, hstart⟩
        · have := hrest'.within hlater'
          omega
      · have hbehind := hrest.within hlater
        rcases List.mem_cons.mp hl' with rfl | hlater'
        · omega
        · -- Both sources have the bytes of the first line, for it ends before `l`.
          have hfirst := h.2.1
          have hend : position + (throughNewline (bytes.drop position)).length ≤ l.position := by
            rw [hfirst] at hbehind
            exact hbehind.1
          have hbytes := throughNewline_drop_eq (hrest.found_of_mem hlater).1 hend hsame
          obtain rfl : first' = first := by
            rw [hfirst, h'.2.1, lineFound, lineFound, hbytes]
          obtain ⟨common, more, more', rfl, rfl, hposition⟩ := ih hrest hrest' hlater hlater'
          refine ⟨first' :: common, more, more', rfl, rfl, ?_⟩
          rw [hposition, extent_cons, PhysicalLine.stop, hstart, Nat.add_assoc]

namespace Catalog

variable {bytes bytes' : Bytes} {start : Nat} {l l' : PhysicalLine} {file file' : Catalog}

/-- A line can call the same macros in two sources that are the same up to this line. -/
theorem candidatesAt_eq_of_front {path : SourcePath} {mode : Mode} {includes : List Catalog}
    (hl : l ∈ physicalLines bytes start) (hl' : l' ∈ physicalLines bytes' start)
    (hposition : l'.position = l.position)
    (hsame : bytes'.take l.position = bytes.take l.position)
    (h : (ofSource { mode, includes } path (.ofBytes bytes) start false).result = .ok file)
    (h' : (ofSource { mode, includes } path (.ofBytes bytes') start false).result = .ok file') :
    file'.candidatesAt includes l'.position = file.candidatesAt includes l.position := by
  obtain ⟨common, more, more', hlines, hlines', hend⟩ :=
    (laidOut_linesFrom bytes start 0).exists_front (laidOut_linesFrom bytes' start 0) hl hl'
      hposition hsame
  obtain ⟨o, ho⟩ := exists_fileOutline (physicalLines bytes start)
  obtain ⟨o', ho'⟩ := exists_fileOutline (physicalLines bytes' start)
  obtain ⟨made, hmade, hpath, hchunks, -⟩ := ofSource_ofBytes ⟨path, mode, includes⟩ bytes start ho
  obtain ⟨made', hmade', hpath', hchunks', -⟩ :=
    ofSource_ofBytes ⟨path, mode, includes⟩ bytes' start ho'
  obtain rfl : file = made := Except.ok.inj (h.symm.trans (congrArg (·.result) hmade))
  obtain rfl : file' = made' := Except.ok.inj (h'.symm.trans (congrArg (·.result) hmade'))
  have hlaid : LaidOut bytes start 0 o.lines := ho.lines_eq ▸ laidOut_linesFrom bytes start 0
  have hlaid' : LaidOut bytes' start 0 o'.lines := ho'.lines_eq ▸ laidOut_linesFrom bytes' start 0
  have hdefined : definedBy l.position file'.chunks.toList =
      definedBy l.position file.chunks.toList := by
    rw [hchunks, hchunks', hend]
    rw [physicalLines, hlines'] at ho'
    rw [physicalLines, hlines] at ho
    exact ho.definedBy_eq (List.cons_ne_nil _ _) (List.cons_ne_nil _ _) rfl ho' hlaid hlaid' _ []
  rw [candidatesAt, candidatesAt, hposition, hpath, hpath', ← definedBy, ← definedBy, hdefined]

end Catalog

end AsmCatalog
