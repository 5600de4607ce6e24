/-
Comments behind macro headers.

A header is not read like other lines: what follows a semicolon stays in it.  So a comment
behind a header becomes a part of what declares the parameters, or hides the keyword.

Main definitions:
* `MacroHeader.KeywordApart` — a space or a tab, or nothing, stands behind the keyword;
* `MacroHeader.TakesComment` — a comment is a part of the parameters of a header.

Main statements:
* `exists_normalize_comment` — the normal form of a header with a comment;
* `ofHeader_headerComment` — whether such a line still is a header;
* `MacroHeader.takesComment_parse?` — which parameters it declares;
* `Catalog.takesComment_ofSource` — the macro that an import makes of it.
-/
import AsmCatalog.Proofs.LineCoverage
import AsmCatalog.Proofs.ParameterText
import AsmCatalog.Proofs.TrailingComment

namespace AsmCatalog

open Unicode (isWhiteSpace)
open Text

variable {line text c : Text}

/-! ### The normal form of a header with a comment -/

namespace Text

/-- A comment stays in the normal form of a line, behind some white space. -/
theorem exists_normalize_comment (hline : isBlank line = false) (c : Text) :
    ∃ gap, (∀ d ∈ gap, isWhiteSpace d = true) ∧
      normalize (line ++ ' ' :: ';' :: c) = normalize line ++ (gap ++ normalize (';' :: c)) := by
  have hcode : trimStart (expandTabs line) ≠ [] := trimStart_expandTabs_ne_nil hline
  obtain ⟨blank, hblank, hwhite, hdark⟩ := exists_trimEnd (trimStart (expandTabs line))
  have hcomment : normalize (';' :: c) =
      collapseSpaces (';' :: trimEnd (expandTabs c)) := normalize_cons_eq (by decide) c
  have hend : trimEnd (';' :: expandTabs c) = ';' :: trimEnd (expandTabs c) :=
    trimEnd_cons (by decide) _
  have hexpand : expandTabs (line ++ ' ' :: ';' :: c) =
      expandTabs line ++ ([' '] ++ ';' :: expandTabs c) := expandTabs_append line _
  have htrim : trim (expandTabs (line ++ ' ' :: ';' :: c)) =
      trim (expandTabs line) ++ ((blank ++ [' ']) ++ ';' :: trimEnd (expandTabs c)) := by
    have hdark : trimEnd (';' :: expandTabs c) ≠ [] := by
      rw [hend]
      exact List.cons_ne_nil _ _
    rw [hexpand, trim, trimStart_append_of_ne_nil hcode, ← List.append_assoc,
      trimEnd_append_of_ne_nil hdark, hend, trim]
    conv_lhs => rw [hblank]
    simp
  refine ⟨collapseSpaces (blank ++ [' ']), fun d hd => ?_, ?_⟩
  · rcases List.mem_append.mp ((collapseSpaces_sublist _).mem hd) with hd | hd
    · exact hwhite d hd
    · rw [List.mem_singleton.mp hd]
      decide
  · rw [normalize, htrim, collapseSpaces_append_of_edge fun hspace => ?_,
      collapseSpaces_append_of_edge fun _ => by simp, ← normalize, ← hcomment]
    exact absurd (hdark ' ' hspace) (by decide)

end Text

/-! ### Whether the keyword is still there -/

namespace MacroHeader

/-- Behind the keyword of a header stands a space or a tab, if anything does. -/
def KeywordApart (line : Text) : Prop :=
  ∀ d ∈ ((fromSecondWord (trimStart (expandTabs line))).drop macroKeyword.length).head?, d = ' '

instance (line : Text) : Decidable (KeywordApart line) := Option.decidableForallMem _

/-- A space behind a text is behind its keyword, or behind what a space separates from that. -/
theorem beginsWithKeyword_space_iff (h : BeginsWithKeyword text) :
    BeginsWithKeyword (text ++ [' ']) ∧
        ((text ++ [' ']).drop macroKeyword.length).head? = some ' ' ↔
      ∀ d ∈ (text.drop macroKeyword.length).head?, d = ' ' := by
  obtain ⟨word, rest, rfl, hword, -⟩ := h
  rw [List.append_assoc, ← (letters_of_spells hword).1, List.drop_left, List.drop_left]
  constructor
  · rintro ⟨-, hspace⟩ d hd
    rw [List.head?_append, hd] at hspace
    exact Option.some.inj hspace
  · intro hapart
    have hspace : (rest ++ [' ']).head? = some ' ' := by
      rw [List.head?_append]
      cases hrest : rest.head? with
      | none => rfl
      | some d => rw [hapart d hrest]; rfl
    exact ⟨⟨word, _, rfl, hword, .inl hspace⟩, hspace⟩

theorem ne_nil_of_beginsWithKeyword (h : BeginsWithKeyword text) : text ≠ [] := by
  obtain ⟨word, rest, rfl, hword, -⟩ := h
  exact List.append_ne_nil_of_left_ne_nil (isWord_of_spells hword).ne_nil _

end MacroHeader

theorem isBlank_of_ofHeader (h : ChunkKind.ofHeader line = .macroDef) : isBlank line = false :=
  PhysicalLine.isBlank_of_header (l := ⟨0, 0, [], line⟩) h

/-- A header with a comment is a header still, unless the keyword has white space of another
kind behind it. -/
theorem ofHeader_headerComment (hcode : ';' ∉ line) (hkind : ChunkKind.ofHeader line = .macroDef)
    (c : Text) : ChunkKind.ofHeader (line ++ ' ' :: ';' :: c) =
      if MacroHeader.KeywordApart line then .macroDef else .statement := by
  have hline := isBlank_of_ofHeader hkind
  have hspaced : isBlank (line ++ [' ']) = false := by
    rw [isBlank, List.all_append, ← isBlank, hline]
    rfl
  have hcode' : ';' ∉ line ++ [' '] := by simpa using hcode
  have hcomment : line ++ ' ' :: ';' :: c = (line ++ [' ']) ++ ';' :: c := by simp
  have hstart : trimStart (expandTabs (line ++ [' '])) = trimStart (expandTabs line) ++ [' '] := by
    rw [expandTabs_append, trimStart_append_of_ne_nil (trimStart_expandTabs_ne_nil hline)]
    rfl
  rw [ChunkKind.ofHeader_eq_macroDef_iff (head?_trimStart_ne hcode)] at hkind
  have hiff : ChunkKind.ofHeader (line ++ ' ' :: ';' :: c) = .macroDef ↔
      MacroHeader.KeywordApart line := by
    have hmany : ' ' ∈ trimStart (expandTabs line) ++ [' '] := by simp
    rw [hcomment, ofHeader_comment_eq_macroDef_iff hcode' hspaced,
      ChunkKind.ofHeader_eq_macroDef_iff (head?_trimStart_ne hcode'), hstart,
      fromSecondWord_append_of_ne_nil (MacroHeader.ne_nil_of_beginsWithKeyword hkind),
      MacroHeader.beginsWithKeyword_space_iff hkind, ← MacroHeader.KeywordApart]
    exact or_iff_right fun hone => hone.1 hmany
  split
  · rename_i hapart
    exact hiff.mpr hapart
  · rename_i hapart
    have hhead := head?_trimStart_comment_ne hcode' hspaced c
    rw [← hcomment] at hhead
    rcases ChunkKind.ofHeader_cases hhead with ⟨hdefinition, -⟩ | ⟨hstatement, -⟩
    · exact absurd (hiff.mp hdefinition) hapart
    · exact hstatement

/-! ### The parameters with the comment -/

namespace MacroHeader

/-- The comment is a part of the text that declares the parameters of a header.  White space
separates it from what declares the parameters without it; by the legacy rule the keyword may
stand between them too, where the header without it has no parameters. -/
structure TakesComment (c : Text) (plain commented : MacroHeader) : Prop where
  name_eq : commented.name = plain.name
  joined : ∃ text between, plain.parameters = splitParameters text ∧
    commented.parameters = splitParameters (text ++ (between ++ normalize (';' :: c))) ∧
    ((∀ d ∈ between, isWhiteSpace d = true) ∨
      text = [] ∧ ∃ keyword white, between = keyword ++ white ∧
        spells keyword macroKeyword = true ∧ ∀ d ∈ white, isWhiteSpace d = true)
  parameters_ne : commented.parameters ≠ plain.parameters

/-- The semicolon of a comment shows up in the parameters. -/
theorem splitParameters_comment_ne {between : Text} (htext : ';' ∉ text) :
    splitParameters (text ++ (between ++ normalize (';' :: c))) ≠ splitParameters text := by
  intro heq
  have hmem : ';' ∈ text ++ (between ++ normalize (';' :: c)) := by
    rw [normalize_cons_eq (by decide)]
    simp
  rw [← exists_mem_splitParameters_iff (by decide) (by decide), heq,
    exists_mem_splitParameters_iff (by decide) (by decide)] at hmem
  exact htext hmem

/-- The second word of a header ends before a comment. -/
theorem exists_cons_of_recognized {name keyword gap : Text} (hname : ' ' ∉ name)
    (hkeyword : spells keyword macroKeyword = true)
    (hline : normalize line = name ++ ' ' :: (keyword ++ (gap ++ ';' :: text)))
    (h : recognized line = true) : ∃ white, gap = ' ' :: white := by
  rw [recognized, hline, tokens, List.splitOn_append_cons_self_of_not_mem hname] at h
  obtain ⟨more, hmore⟩ := exists_tokens (keyword ++ (gap ++ ';' :: text))
  rw [tokens, headWord_append (space_notMem_of_spells hkeyword)] at hmore
  rw [hmore] at h
  have hlength := (letters_of_spells h).1
  rw [List.length_append, (letters_of_spells hkeyword).1] at hlength
  have hnone : headWord (gap ++ ';' :: text) = [] := List.length_eq_zero_iff.mp (by omega)
  cases gap with
  | nil => exact absurd hnone (by simp [headWord])
  | cons d white =>
    by_cases hd : d = ' '
    · exact ⟨white, by rw [hd]⟩
    · exact absurd hnone (by simp [headWord, hd])

theorem recognized_of_macroDef (h : ChunkKind.ofHeader line = .macroDef) :
    recognized line = true := by
  rw [ChunkKind.ofHeader] at h
  split at h
  · exact absurd h (by simp)
  · split at h
    · rename_i hrecognized
      rwa [recognized, normalize_trimStart_expandTabs, ← recognized] at hrecognized
    · exact absurd h (by simp)

/-- A header that still is one with a comment behind it has the comment among its parameters. -/
theorem takesComment_parse? (hcode : ';' ∉ line) (hkind : ChunkKind.ofHeader line = .macroDef)
    (hcommented : ChunkKind.ofHeader (line ++ ' ' :: ';' :: c) = .macroDef) (mode : Mode) :
    ∃ plain commented, parse? mode (normalize line) = some plain ∧
      parse? mode (normalize (line ++ ' ' :: ';' :: c)) = some commented ∧
      TakesComment c plain commented := by
  have hline := isBlank_of_ofHeader hkind
  obtain ⟨gap, hgap, hnormal⟩ := exists_normalize_comment hline c
  obtain ⟨name, keyword, hname, hkeyword, hwords⟩ := exists_words (recognized_of_macroDef hkind)
  have hparse := parse?_of_more hname hkeyword mode
  have hkept := keptKeyword_cases mode name keyword
  generalize keptKeyword mode name keyword = kept at hparse hkept
  rcases hwords with htwo | ⟨rest, hmore⟩
  · -- Nothing stands behind the keyword, so that the comment is all there is to declare.
    have hcomment := normalize_cons_eq (c := ';') (by decide) c
    rw [htwo, hcomment, List.append_assoc, List.cons_append] at hnormal
    obtain ⟨white, rfl⟩ := exists_cons_of_recognized hname hkeyword hnormal
      (recognized_of_macroDef hcommented)
    rw [List.cons_append] at hnormal
    have hwhite : ∀ d ∈ white, isWhiteSpace d = true := fun d hd =>
      hgap d (List.mem_cons_of_mem _ hd)
    refine ⟨⟨name, []⟩, ⟨name, splitParameters ([] ++ (kept ++ white ++ normalize (';' :: c)))⟩,
      ?_, ?_, ⟨rfl, ⟨[], kept ++ white, rfl, rfl, ?_⟩, splitParameters_comment_ne List.not_mem_nil⟩⟩
    · rw [htwo, parse?_of_two hname hkeyword]
    · rw [hnormal, hparse, hcomment, List.nil_append, List.append_assoc]
    · rcases hkept with rfl | rfl
      · exact .inl hwhite
      · refine .inr ⟨rfl, keyword, ' ' :: white, by simp, hkeyword, ?_⟩
        exact List.forall_mem_cons.mpr ⟨by decide, hwhite⟩
  · have hsemicolon : ';' ∉ kept ++ rest := fun hd =>
      hcode (mem_of_mem_normalize (by decide) (hmore ▸ mem_of_mem_kept hkept hd))
    refine ⟨⟨name, splitParameters (kept ++ rest)⟩,
      ⟨name, splitParameters (kept ++ rest ++ (gap ++ normalize (';' :: c)))⟩, ?_, ?_,
      ⟨rfl, ⟨kept ++ rest, gap, rfl, rfl, .inl hgap⟩, splitParameters_comment_ne hsemicolon⟩⟩
    · rw [hmore, hparse]
    · rw [hnormal, hmore, List.append_assoc, List.cons_append, List.append_assoc, List.cons_append,
        hparse, List.append_assoc]

end MacroHeader

/-! ### Imports of a header with a comment -/

namespace Catalog

variable {bytes bytes' : Bytes} {start start' : Nat} {l l' : PhysicalLine}

/-- The one chunk with this number defines the macro. -/
def DefinesAt (file : Catalog) (number : Int) (m : Macro Chunk) : Prop :=
  ∃ chunk, file.allChunks.filter (·.line = number) = [chunk] ∧ chunk.content = .macroDef m

/-- A header line defines the macro that its text declares. -/
theorem exists_definesAt (path : SourcePath) (mode : Mode) (includes : List Catalog)
    (hl : l ∈ physicalLines bytes start) (htext : l.text = expandTabs line)
    (hkind : ChunkKind.ofHeader line = .macroDef) :
    ∃ file m, (ofSource { mode, includes } path (.ofBytes bytes) start false).result = .ok file ∧
      file.DefinesAt l.number m ∧
      MacroHeader.parse? mode (normalize line) = some ⟨m.name, m.parameters⟩ := by
  have hdefinition : l.kind = .macroDef := by
    rw [PhysicalLine.kind, htext, ChunkKind.ofHeader_expandTabs, hkind]
  obtain ⟨file, chunk, hfile, hchunk, hof⟩ := exists_isOf_ofBytes path mode includes hl
    (PhysicalLine.isBlank_of_header hdefinition)
  have hchunkKind := hof.kind.trans hdefinition
  have hcontent := hof.content
  rw [Chunk.kind] at hchunkKind
  split at hchunkKind
  · exact absurd hchunkKind (by simp)
  · exact absurd hchunkKind (by simp)
  · rename_i m hm
    rw [hm, Content.IsOf, htext, normalize_expandTabs] at hcontent
    exact ⟨file, m, hfile, ⟨chunk, hchunk, hm⟩, hcontent⟩

/-- A comment behind the header of a macro gets among its parameters, or makes a statement of
the header where the keyword has white space of another kind behind it. -/
theorem takesComment_ofSource (hcode : ';' ∉ line) (hkind : ChunkKind.ofHeader line = .macroDef)
    (c : Text) (path path' : SourcePath) (mode : Mode) (includes : List Catalog)
    (hl : l ∈ physicalLines bytes start) (hl' : l' ∈ physicalLines bytes' start')
    (htext : l.text = expandTabs line) (htext' : l'.text = expandTabs (line ++ ' ' :: ';' :: c)) :
    ∃ file file' m,
      (ofSource { mode, includes } path (.ofBytes bytes) start false).result = .ok file ∧
      (ofSource { mode, includes } path' (.ofBytes bytes') start' false).result = .ok file' ∧
      file.DefinesAt l.number m ∧
      if MacroHeader.KeywordApart line then
        ∃ m', file'.DefinesAt l'.number m' ∧
          MacroHeader.TakesComment c ⟨m.name, m.parameters⟩ ⟨m'.name, m'.parameters⟩
      else ∃ chunk, file'.allChunks.filter (·.line = l'.number) = [chunk] ∧
        chunk.kind = .statement := by
  obtain ⟨file, m, hfile, hm, hparse⟩ := exists_definesAt path mode includes hl htext hkind
  have hcommented := ofHeader_headerComment hcode hkind c
  split at hcommented
  · rename_i hapart
    obtain ⟨file', m', hfile', hm', hparse'⟩ :=
      exists_definesAt path' mode includes hl' htext' hcommented
    refine ⟨file, file', m, hfile, hfile', hm, ?_⟩
    rw [if_pos hapart]
    obtain ⟨plain, commented, hplain, hwith, htakes⟩ :=
      MacroHeader.takesComment_parse? hcode hkind hcommented mode
    obtain rfl := Option.some.inj (hplain.symm.trans hparse)
    obtain rfl := Option.some.inj (hwith.symm.trans hparse')
    exact ⟨m', hm', htakes⟩
  · rename_i hapart
    have hblank : l'.isBlank = false := by
      have hcomment : (expandTabs (' ' :: ';' :: c)).all isWhiteSpace = false := rfl
      rw [PhysicalLine.isBlank, htext', isBlank, expandTabs_append, List.all_append, hcomment,
        Bool.and_false]
    obtain ⟨file', chunk, hfile', hchunk, hof⟩ :=
      exists_isOf_ofBytes path' mode includes hl' hblank
    refine ⟨file, file', m, hfile, hfile', hm, ?_⟩
    rw [if_neg hapart]
    refine ⟨chunk, hchunk, ?_⟩
    rw [hof.kind, PhysicalLine.kind, htext', ChunkKind.ofHeader_expandTabs, hcommented]

/-- The header of a macro with one parameter. -/
def plainHeader : Text := ['m', ' ', 'm', 'a', 'c', 'r', 'o', ' ', 'x']

/-- A macro with one parameter. -/
def plainSource : Bytes := Utf8.encode (plainHeader ++ ['\n', 'e', 'n', 'd', 'm', '\n'])

/-- The same macro with a comment behind its header. -/
def commentedSource : Bytes :=
  Utf8.encode (plainHeader ++ ' ' :: ';' :: ['y', '\n', 'e', 'n', 'd', 'm', '\n'])

theorem takesComment_ofSource_commentedSource :
    ∃ file file' m m',
      (ofSource {} default (.ofBytes plainSource) 0 false).result = .ok file ∧
      (ofSource {} default (.ofBytes commentedSource) 0 false).result = .ok file' ∧
      file.DefinesAt 0 m ∧ file'.DefinesAt 0 m' ∧
      MacroHeader.TakesComment ['y'] ⟨m.name, m.parameters⟩ ⟨m'.name, m'.parameters⟩ := by
  have hcode : ';' ∉ plainHeader := by decide
  have hkind : ChunkKind.ofHeader plainHeader = .macroDef := by decide +kernel
  have hl : ⟨0, 0, Utf8.encode (plainHeader ++ ['\n']), plainHeader⟩ ∈
      physicalLines plainSource 0 := by decide +kernel
  have hl' : ⟨0, 0, Utf8.encode (plainHeader ++ ' ' :: ';' :: ['y', '\n']),
      plainHeader ++ ' ' :: ';' :: ['y']⟩ ∈ physicalLines commentedSource 0 := by decide +kernel
  obtain ⟨file, file', m, hfile, hfile', hm, hwith⟩ :=
    takesComment_ofSource hcode hkind ['y'] default default .legacy [] hl hl' rfl rfl
  rw [if_pos (by decide +kernel)] at hwith
  obtain ⟨m', hm', htakes⟩ := hwith
  exact ⟨file, file', m, m', hfile, hfile', hm, hm', htakes⟩

/-- What the chunks of an import declare, where they define macros. -/
def declaredIn (bytes : Bytes) : Option (List (Option MacroHeader)) :=
  (ofSource {} default (.ofBytes bytes) 0 false).result.toOption.map fun file =>
    file.chunks.toList.map fun chunk => chunk.definition?.map fun m => ⟨m.name, m.parameters⟩

/-- The comment changes the name of the parameter. -/
theorem declaredIn_commentedSource :
    declaredIn plainSource = some [some ⟨['m'], [['x']]⟩] ∧
      declaredIn commentedSource = some [some ⟨['m'], [['x', ' ', ';', 'y']]⟩] := by
  decide +kernel

end Catalog

end AsmCatalog
