/-
Lines with a label.

A dot label in front of some code leaves the code what it is.  The kind of the line is told with
the label as its first token, so that the first token of the code must not be the keyword of a
header.  What the line declares or calls is read behind the label, as if that were not there, and
among the same macros, for they have come to their ends before the line.

Main definitions:
* `labelled` — the line with a dot label in front of some code;
* `IsLabel`, `IsUnlabelled` — labels, and code that can have one;
* `Catalog.formAt`, `Catalog.declaredAt` — what a file says of a line.

Main statements:
* `ofHeader_labelled` — such a line is a statement;
* `Statement.parse_labelled` — it has the label, and is what the code is;
* `Catalog.formAt_eq`, `Catalog.declaredAt_eq` — what a file says of a line, told from its text;
* `Catalog.ofSource_labelled` — so an import takes the line for what it takes the code for.
-/
import AsmCatalog.Proofs.CommonFront
import AsmCatalog.Proofs.Comparison
import AsmCatalog.Proofs.SpacedText
import AsmCatalog.Proofs.Utf8RoundTrip

namespace AsmCatalog

open Unicode (isWhiteSpace)
open Text

variable {label code : Text}

/-! ### Lines with a label -/

/-- The line with a label in front of some code. -/
def labelled (label code : Text) : Text := '.' :: (label ++ ' ' :: code)

/-- A text that is a label as it stands. -/
structure IsLabel (label : Text) : Prop where
  space_notMem : ' ' ∉ label
  tab_notMem : '\t' ∉ label
  semicolon_notMem : ';' ∉ label

/-- A statement that has no label yet, and is no header as soon as it has one. -/
structure IsUnlabelled (code : Text) : Prop where
  statement : ChunkKind.ofHeader code = .statement
  dot_ne : (trimStart code).head? ≠ some '.'
  keyword_ne : ∀ token ∈ (tokens (Text.normalize code)).head?, spells token macroKeyword = false

theorem expandTabs_labelled (h : IsLabel label) :
    expandTabs (labelled label code) = labelled label (expandTabs code) := by
  have hlabel := expandTabs_of_notMem h.tab_notMem
  show '.' :: expandTabs (label ++ ' ' :: code) = _
  rw [expandTabs_append, hlabel]
  rfl

theorem trimStart_labelled : trimStart (labelled label code) = labelled label code :=
  trimStart_of_beginsDark (beginsDark_cons (by decide) _)

theorem IsUnlabelled.expandTabs (h : IsUnlabelled code) : IsUnlabelled (expandTabs code) where
  statement := (ChunkKind.ofHeader_expandTabs code).trans h.statement
  dot_ne := by
    rw [trimStart_expandTabs, Text.expandTabs, List.head?_map]
    intro hhead
    obtain ⟨c, hc, hdot⟩ := Option.map_eq_some_iff.mp hhead
    by_cases htab : c = '\t'
    · rw [if_pos htab] at hdot
      exact absurd hdot (by decide)
    · rw [if_neg htab] at hdot
      exact h.dot_ne (hdot ▸ hc)
  keyword_ne := by
    rw [normalize_expandTabs]
    exact h.keyword_ne

/-- Where the keyword is the first word of some code, it is its first token. -/
theorem MacroHeader.BeginsWithKeyword.exists_token
    (h : BeginsWithKeyword ((expandTabs code).dropWhile (· = ' '))) :
    ∃ token ∈ (tokens (Text.normalize code)).head?, spells token macroKeyword = true := by
  set text := (expandTabs code).dropWhile (· = ' ')
  -- The keyword is dark, so that the spaces before it are all the white space there.
  have hdark : BeginsDark text := beginsDark_of_beginsWithKeyword h
  have hstart : trimStart (expandTabs code) = text := by
    have hspaces : ∀ c ∈ (expandTabs code).takeWhile (· = ' '), isWhiteSpace c = true := by
      intro c hc
      have hspace : c = ' ' := by simpa using List.mem_takeWhile_imp hc
      rw [hspace]
      decide
    rw [← List.takeWhile_append_dropWhile (p := (· = ' ')) (l := expandTabs code),
      trimStart_append hspaces, trimStart_of_beginsDark hdark]
  obtain ⟨blank, hsplit, hblank, hlast⟩ := exists_trimEnd text
  rw [hsplit, beginsWithKeyword_append_iff hlast hblank] at h
  obtain ⟨behind, htokens⟩ := exists_tokens (collapseSpaces (trimEnd text))
  refine ⟨headWord (trimEnd text), ?_, h⟩
  rw [Text.normalize, trim, hstart, htokens, headWord_collapseSpaces]
  rfl

/-- A line with a label is a statement. -/
theorem ofHeader_labelled (hlabel : IsLabel label) (hcode : IsUnlabelled code) :
    ChunkKind.ofHeader (labelled label code) = .statement := by
  have htext : trimStart (expandTabs (labelled label code)) = labelled label (expandTabs code) := by
    rw [expandTabs_labelled hlabel, trimStart_labelled]
  have hhead : (trimStart (expandTabs (labelled label code))).head? ≠ some ';' := by
    rw [htext, labelled]
    simp
  rcases ChunkKind.ofHeader_cases hhead with ⟨-, hkeyword⟩ | ⟨hkind, -⟩
  · -- The second word of the line is the first one of the code.
    have hword : ' ' ∉ '.' :: label := by simpa using hlabel.space_notMem
    have hcut : labelled label (expandTabs code) = ('.' :: label) ++ ' ' :: expandTabs code := rfl
    rw [htext, hcut, fromSecondWord_append hword, fromSecondWord_space] at hkeyword
    obtain ⟨token, htoken, hspells⟩ := hkeyword.exists_token
    exact absurd hspells (by simp [hcode.keyword_ne token htoken])
  · exact hkind

/-! ### What the line is read as -/

theorem dotLabel_labelled (h : IsLabel label) :
    dotLabel (withoutComment (labelled label code)) =
      (some label, ' ' :: withoutComment code) := by
  have hcode : ∀ c ∈ label, decide (c ≠ ';') = true := fun c hc =>
    decide_eq_true fun hsemicolon => h.semicolon_notMem (hsemicolon ▸ hc)
  have hword : ∀ c ∈ label, decide (c ≠ ' ') = true := fun c hc =>
    decide_eq_true fun hspace => h.space_notMem (hspace ▸ hc)
  have hcut : withoutComment (labelled label code) = labelled label (withoutComment code) := by
    rw [withoutComment, labelled, List.takeWhile_cons_of_pos (by decide),
      List.takeWhile_append_of_pos hcode, List.takeWhile_cons_of_pos (by decide)]
    rfl
  have hspace : ' ' ∈ label ++ ' ' :: withoutComment code := by simp
  rw [hcut, dotLabel, trimStart_labelled, labelled]
  simp only [if_pos hspace]
  rw [List.takeWhile_append_of_pos hword, List.takeWhile_cons_of_neg (by simp),
    List.dropWhile_append_of_pos hword, List.dropWhile_cons_of_neg (by simp), List.append_nil]

theorem dotLabel_unlabelled (h : IsUnlabelled code) :
    dotLabel (withoutComment code) = (none, withoutComment code) := by
  rw [dotLabel]
  split
  · rename_i rest hdot
    -- What is cut off comes behind the dot.
    have hcode : withoutComment code ++ code.dropWhile (· ≠ ';') = code :=
      List.takeWhile_append_dropWhile
    have hstart : trimStart code = '.' :: rest ++ code.dropWhile (· ≠ ';') := by
      conv_lhs => rw [← hcode]
      rw [trimStart_append_of_ne_nil (hdot ▸ List.cons_ne_nil _ _), hdot]
    exact absurd (congrArg List.head? hstart) h.dot_ne
  · rfl

/-- A space in front of some code makes no difference. -/
theorem Form.parse?_space {β : Type} (mode : Mode) (candidates : List (Macro β)) (code : Text) :
    Form.parse? mode candidates (' ' :: code) = Form.parse? mode candidates code := by
  have hblank : isBlank (' ' :: code) = isBlank code := rfl
  have hspace : Blanks [' '] := by decide
  have hnormal : Text.normalize (' ' :: code) = Text.normalize code :=
    normalize_append_blanks hspace
  have htrim : trim (' ' :: code) = trim code := rfl
  rw [Form.parse?, Form.parse?, hblank, Equate.parse?, hnormal, ← Equate.parse?, Invocation.parse?,
    htrim, ← Invocation.parse?]

/-- A line with a label has the label, and is what its code is without it. -/
theorem Statement.parse_labelled {β : Type} (hlabel : IsLabel label) (hcode : IsUnlabelled code)
    (mode : Mode) (candidates : List (Macro β)) :
    Statement.parse mode candidates (labelled label code) =
      ⟨labelled label code, some label, (Statement.parse mode candidates code).form⟩ := by
  rw [Statement.parse, Statement.parse, dotLabel_labelled hlabel, dotLabel_unlabelled hcode]
  exact congrArg _ (Form.parse?_space mode candidates _)

/-! ### Imports of such a line -/

namespace Catalog

/-- What the line with this number is recognized as. -/
def formAt (file : Catalog) (number : Int) : Option (Form Chunk) :=
  (file.allChunks.filter (·.line = number)).head?.bind fun c => c.statement?.bind (·.form)

/-- The names and values of the constants that the line with this number declares. -/
def declaredAt (file : Catalog) (number : Int) : List (Text × Text) :=
  (file.constants.filter (·.line = number)).map fun c => (c.name, c.value)

variable {bytes bytes' : Bytes} {start : Nat} {l l' : PhysicalLine} {path : SourcePath}
  {mode : Mode} {includes : List Catalog} {file : Catalog} {number : Int}

/-- A line has a chunk, unless it is blank. -/
theorem filter_line_eq_nil_or
    (h : (ofSource { mode, includes } path (.ofBytes bytes) start false).result = .ok file)
    (hl : l ∈ physicalLines bytes start) :
    l.isBlank = true ∧ file.allChunks.filter (·.line = l.number) = [] ∨
      l.isBlank = false ∧ ∃ chunk, file.allChunks.filter (·.line = l.number) = [chunk] := by
  cases hblank : l.isBlank with
  | true =>
    obtain ⟨k, hk⟩ := List.mem_iff_getElem?.mp hl
    have hnumber : l.number = k := by
      rw [(laidOut_linesFrom bytes start 0).number_of_getElem? hk, Int.zero_add]
    have hcovers := coversLines_of_fixed (Source.fixed_ofBytes bytes) h
    rw [hnumber]
    exact .inl ⟨rfl, hcovers.blank k l hk hblank⟩
  | false =>
    obtain ⟨found, chunk, hfound, hchunk, -⟩ := exists_isOf_ofBytes path mode includes hl hblank
    obtain rfl : file = found := Except.ok.inj (h.symm.trans hfound)
    exact .inr ⟨rfl, chunk, hchunk⟩

/-- A statement line is recognized as what its text is among its candidates, also if it is
blank. -/
theorem formAt_eq
    (h : (ofSource { mode, includes } path (.ofBytes bytes) start false).result = .ok file)
    (hl : l ∈ physicalLines bytes start) (hkind : l.kind = .statement) :
    file.formAt l.number =
      (Statement.parse mode (file.candidatesAt includes l.position) l.text).form := by
  rcases filter_line_eq_nil_or h hl with ⟨hblank, hnone⟩ | ⟨hblank, -⟩
  · rw [formAt, hnone, Statement.form_parse_of_isBlank hblank]
    rfl
  · obtain ⟨chunk, hchunk, -, hcontent⟩ := exists_parse h hl hkind hblank
    rw [formAt, hchunk, List.head?_singleton, Option.bind_some, Chunk.statement?, hcontent]
    rfl

/-- A line declares a constant if it is recognized as an equate. -/
theorem declaredAt_eq
    (h : (ofSource { mode, includes } path (.ofBytes bytes) start false).result = .ok file)
    (hl : l ∈ physicalLines bytes start) :
    file.declaredAt l.number =
      ((file.formAt l.number).bind Form.equate?).toList.map fun e => (e.name, e.value) := by
  have hread := readBy_of_ofSource h
  have hconstants : file.constants.filter (·.line = l.number) =
      (file.allChunks.filter (·.line = l.number)).filterMap Constant.ofChunk? := by
    rw [hread.constants, List.filter_filterMap, List.filterMap_filter]
    refine List.filterMap_congr fun c _ => ?_
    rw [Constant.ofChunk?_eq]
    cases c.equate? with
    | none => simp
    | some e => simp [Option.filter]
  rcases filter_line_eq_nil_or h hl with ⟨-, hnone⟩ | ⟨-, chunk, hchunk⟩
  · rw [declaredAt, hconstants, formAt, hnone]
    rfl
  · have hequate : (chunk.statement?.bind (·.form)).bind Form.equate? = chunk.equate? :=
      Option.bind_assoc ..
    rw [declaredAt, hconstants, formAt, hchunk, List.head?_singleton, Option.bind_some, hequate,
      List.filterMap_cons, Constant.ofChunk?_eq]
    cases chunk.equate? <;> rfl

/-- In two imports of sources that are the same up to a line, which has a label in the second
one, the line with the label is a statement with this label.  It is recognized as what the line
without it is, and declares a constant with the same name and value if that declares one. -/
theorem ofSource_labelled (hlabel : IsLabel label) (hcode : IsUnlabelled code)
    (hmark : code.head? ≠ some '\uFEFF') (path : SourcePath) (mode : Mode)
    (includes : List Catalog) (hl : l ∈ physicalLines bytes start)
    (hl' : l' ∈ physicalLines bytes' start) (hposition : l'.position = l.position)
    (hsame : bytes'.take l.position = bytes.take l.position)
    (hstored : withoutTerminator l.bytes = Utf8.encode code)
    (hstored' : withoutTerminator l'.bytes = Utf8.encode (labelled label code)) :
    ∃ file file' chunk s,
      (ofSource { mode, includes } path (.ofBytes bytes) start false).result = .ok file ∧
      (ofSource { mode, includes } path (.ofBytes bytes') start false).result = .ok file' ∧
      file'.allChunks.filter (·.line = l'.number) = [chunk] ∧ chunk.position = l'.position ∧
      chunk.content = .statement s ∧ s.text = expandTabs (labelled label code) ∧
      s.label = some label ∧ s.form = file.formAt l.number ∧
      file'.declaredAt l'.number = file.declaredAt l.number := by
  have htext : l.text = expandTabs code := by
    rw [((laidOut_linesFrom bytes start 0).found_of_mem hl).2] at hstored ⊢
    exact lineText_of_encode hmark hstored l.position
  have htext' : l'.text = labelled label (expandTabs code) := by
    rw [((laidOut_linesFrom bytes' start 0).found_of_mem hl').2] at hstored' ⊢
    rw [← expandTabs_labelled hlabel]
    exact lineText_of_encode (by simp [labelled]) hstored' l'.position
  have hkind : l.kind = .statement := by
    rw [PhysicalLine.kind, htext, hcode.expandTabs.statement]
  have hkind' : l'.kind = .statement := by
    rw [PhysicalLine.kind, htext', ofHeader_labelled hlabel hcode.expandTabs]
  have hblank' : l'.isBlank = false := by
    rw [PhysicalLine.isBlank, htext']
    rfl
  obtain ⟨file, hfile⟩ := exists_ok_ofBytes path mode includes bytes start
  obtain ⟨file', hfile'⟩ := exists_ok_ofBytes path mode includes bytes' start
  obtain ⟨chunk, hchunk, hplace, hcontent⟩ := exists_parse hfile' hl' hkind' hblank'
  -- The line calls among the same macros in both files.
  have hcandidates := candidatesAt_eq_of_front hl hl' hposition hsame hfile hfile'
  have hparse := Statement.parse_labelled hlabel hcode.expandTabs mode
    (file'.candidatesAt includes l'.position)
  have hform : file'.formAt l'.number = file.formAt l.number := by
    rw [formAt_eq hfile' hl' hkind', formAt_eq hfile hl hkind, htext, htext', hparse, hcandidates]
  rw [htext', hparse] at hcontent
  refine ⟨file, file', chunk, _, hfile, hfile', hchunk, hplace, hcontent,
    (expandTabs_labelled hlabel).symm, rfl, ?_, ?_⟩
  · rw [formAt_eq hfile hl hkind, htext, hcandidates]
  · rw [declaredAt_eq hfile' hl', declaredAt_eq hfile hl, hform]

/-- The macro `m` with the parameter `x`, and a line behind it. -/
def behindMacro (line : Text) : Bytes :=
  Utf8.encode (['m', ' ', 'm', 'a', 'c', 'r', 'o', ' ', 'x', '\n', 'e', 'n', 'd', 'm', '\n'] ++
    (line ++ ['\n']))

/-- The line calls the macro, also behind the label. -/
theorem ofSource_labelled_behindMacro :
    IsLabel ['a', ':'] ∧ IsUnlabelled ['\t', 'm', ' ', '1'] ∧
    ∃ file file' chunk s,
      (ofSource {} default (.ofBytes (behindMacro ['\t', 'm', ' ', '1'])) 0 false).result =
        .ok file ∧
      (ofSource {} default (.ofBytes (behindMacro (labelled ['a', ':'] ['\t', 'm', ' ', '1']))) 0
        false).result = .ok file' ∧
      file'.allChunks.filter (·.line = 2) = [chunk] ∧ chunk.content = .statement s ∧
      s.label = some ['a', ':'] ∧ s.form = file.formAt 2 ∧
      (s.form.bind Form.invocation?).map (fun i => (i.callee.name, i.contents)) =
        some (['m'], [['1']]) := by
  have hlabel : IsLabel ['a', ':'] := ⟨by decide, by decide, by decide⟩
  have hcode : IsUnlabelled ['\t', 'm', ' ', '1'] :=
    ⟨by decide +kernel, by decide, by decide +kernel⟩
  have hl : ⟨15, 2, Utf8.encode ['\t', 'm', ' ', '1', '\n'], [' ', 'm', ' ', '1']⟩ ∈
      physicalLines (behindMacro ['\t', 'm', ' ', '1']) 0 := by decide +kernel
  have hl' : ⟨15, 2, Utf8.encode (labelled ['a', ':'] ['\t', 'm', ' ', '1', '\n']),
      labelled ['a', ':'] [' ', 'm', ' ', '1']⟩ ∈
      physicalLines (behindMacro (labelled ['a', ':'] ['\t', 'm', ' ', '1'])) 0 := by
    decide +kernel
  obtain ⟨file, file', chunk, s, hfile, hfile', hchunk, -, hs, -, hslabel, hform, -⟩ :=
    ofSource_labelled hlabel hcode (by decide) default .legacy [] hl hl' rfl (by decide +kernel)
      (by decide +kernel) (by decide +kernel)
  refine ⟨hlabel, hcode, file, file', chunk, s, hfile, hfile', hchunk, hs, hslabel, hform, ?_⟩
  have hcalls : (ofSource {} default (.ofBytes (behindMacro ['\t', 'm', ' ', '1'])) 0
      false).result.toOption.map (fun file => ((file.formAt 2).bind Form.invocation?).map
        fun i => (i.callee.name, i.contents)) = some (some (['m'], [['1']])) := by decide +kernel
  have hsame : (ofSource {} default (.ofBytes (behindMacro ['\t', 'm', ' ', '1'])) 0
      false).result = .ok file := hfile
  rw [hsame] at hcalls
  rw [hform]
  exact Option.some.inj hcalls

end Catalog

end AsmCatalog
