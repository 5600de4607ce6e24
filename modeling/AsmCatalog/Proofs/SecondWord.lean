/-
The second word of a line, which tells whether the line is a macro header.

Words stand between spaces, and a line is read in normal form: tabs count as spaces, white
space at its ends is gone, and a run of spaces counts as one.  Here the second word is found
in the line as it stands.

Main definitions:
* `Text.fromSecondWord`, `Text.headWord` — a text from its second word on, and its first word;
* `MacroHeader.BeginsWithKeyword` — a text begins with the keyword of a header, and nothing
  else belongs to that word.

Main statements:
* `MacroHeader.recognized_iff` — a line is a header if the keyword begins its second word;
* `ChunkKind.ofHeader_eq_macroDef_iff` — the same for the kind of a chunk.
-/
import AsmCatalog.Proofs.HeaderKeyword

namespace AsmCatalog

open Unicode (isWhiteSpace)

/-! ### The second word of a line -/

namespace Text

/-- A text from its second word on, where words stand between spaces. -/
def fromSecondWord (text : Text) : Text := (text.dropWhile (· ≠ ' ')).dropWhile (· = ' ')

/-- The word that a text begins with. -/
def headWord (text : Text) : Text := text.takeWhile (· ≠ ' ')

variable {text word rest : Text}

theorem headWord_append (h : ' ' ∉ word) : headWord (word ++ rest) = word ++ headWord rest :=
  List.takeWhile_append_of_pos fun _ hc => decide_eq_true fun hspace => h (hspace ▸ hc)

/-- A text has one word alone, or words with a space between them. -/
theorem space_notMem_or (text : Text) :
    ' ' ∉ text ∨ ∃ word rest, ' ' ∉ word ∧ text = word ++ ' ' :: rest := by
  by_cases h : ' ' ∈ text
  · obtain ⟨word, rest, rfl, hword⟩ := List.eq_append_cons_of_mem h
    exact .inr ⟨word, rest, hword, rfl⟩
  · exact .inl h

theorem dropWhile_of_notMem (h : ' ' ∉ word) :
    (word ++ rest).dropWhile (· ≠ ' ') = rest.dropWhile (· ≠ ' ') :=
  List.dropWhile_append_of_pos fun _ hc => decide_eq_true fun hspace => h (hspace ▸ hc)

theorem fromSecondWord_append (h : ' ' ∉ word) :
    fromSecondWord (word ++ rest) = fromSecondWord rest := by
  rw [fromSecondWord, dropWhile_of_notMem h, ← fromSecondWord]

theorem fromSecondWord_of_notMem (h : ' ' ∉ text) : fromSecondWord text = [] := by
  rw [← List.append_nil text, fromSecondWord_append h]
  rfl

theorem fromSecondWord_space (rest : Text) :
    fromSecondWord (' ' :: rest) = rest.dropWhile (· = ' ') := by
  rw [fromSecondWord, List.dropWhile_cons_of_neg (by simp), List.dropWhile_cons_of_pos (by simp)]

theorem fromSecondWord_suffix (text : Text) : fromSecondWord text <:+ text :=
  (List.dropWhile_suffix _).trans (List.dropWhile_suffix _)

/-- What comes behind a text that goes on to its second word belongs to that. -/
theorem fromSecondWord_append_of_ne_nil {behind : Text} (h : fromSecondWord text ≠ []) :
    fromSecondWord (text ++ behind) = fromSecondWord text ++ behind := by
  rcases space_notMem_or text with hnone | ⟨word, rest, hword, rfl⟩
  · exact absurd (fromSecondWord_of_notMem hnone) h
  · rw [fromSecondWord_append hword, fromSecondWord_space] at h ⊢
    rw [List.append_assoc, fromSecondWord_append hword, List.cons_append, fromSecondWord_space,
      List.dropWhile_append, if_neg (by simpa using h)]

/-- A text of several words goes on with its second word where more comes behind it. -/
theorem fromSecondWord_append_cons {behind : Text} {d : Char} (h : ' ' ∈ text)
    (hd : d ≠ ' ') :
    fromSecondWord (text ++ d :: behind) = fromSecondWord text ++ d :: behind := by
  obtain ⟨word, rest, rfl, hword⟩ := List.eq_append_cons_of_mem h
  rw [List.append_assoc, fromSecondWord_append hword, fromSecondWord_append hword,
    List.cons_append, fromSecondWord_space, fromSecondWord_space, List.dropWhile_append]
  split
  · rename_i hempty
    rw [List.isEmpty_iff.mp hempty, List.dropWhile_cons_of_neg (by simpa using hd)]
    rfl
  · rfl

/-- Where a text does not go on to its second word, that lies in what comes behind. -/
theorem fromSecondWord_append_suffix {behind : Text} (h : fromSecondWord text = []) :
    fromSecondWord (text ++ behind) <:+ behind := by
  rcases space_notMem_or text with hnone | ⟨word, rest, hword, rfl⟩
  · rw [fromSecondWord_append hnone]
    exact fromSecondWord_suffix behind
  · rw [fromSecondWord_append hword, fromSecondWord_space] at h
    rw [List.append_assoc, fromSecondWord_append hword, List.cons_append, fromSecondWord_space,
      List.dropWhile_append, if_pos (by simp [h])]
    exact List.dropWhile_suffix _

/-! ### The second token of a line -/

/-- Spaces are collapsed word by word. -/
theorem collapseSpaces_append (h : ' ' ∉ word) :
    collapseSpaces (word ++ rest) = word ++ collapseSpaces rest := by
  induction word with
  | nil => rfl
  | cons c word ih =>
    obtain ⟨hc, hword⟩ := not_or.mp (mt List.mem_cons.mpr h)
    rw [List.cons_append, collapseSpaces, if_neg (fun hboth => hc hboth.1.symm), ih hword,
      List.cons_append]

theorem collapseSpaces_of_notMem (h : ' ' ∉ text) : collapseSpaces text = text := by
  have hall : collapseSpaces (text ++ []) = text ++ collapseSpaces [] := collapseSpaces_append h
  simpa [collapseSpaces] using hall

theorem collapseSpaces_space (rest : Text) :
    collapseSpaces (' ' :: rest) = ' ' :: collapseSpaces (rest.dropWhile (· = ' ')) := by
  induction rest with
  | nil => rfl
  | cons c rest ih =>
    by_cases hc : c = ' '
    · subst hc
      rw [collapseSpaces, if_pos ⟨rfl, rfl⟩, ih, List.dropWhile_cons_of_pos (by simp)]
    · rw [collapseSpaces, if_neg (by simp [hc]), List.dropWhile_cons_of_neg (by simpa using hc)]

theorem headWord_collapseSpaces (text : Text) :
    headWord (collapseSpaces text) = headWord text := by
  rcases space_notMem_or text with hnone | ⟨word, rest, hword, rfl⟩
  · rw [collapseSpaces_of_notMem hnone]
  · rw [collapseSpaces_append hword, headWord_append hword, headWord_append hword,
      collapseSpaces_space]
    rfl

/-- The first token of a text is its first word. -/
theorem exists_tokens (text : Text) : ∃ behind, tokens text = headWord text :: behind := by
  rcases space_notMem_or text with hnone | ⟨word, rest, hword, rfl⟩
  · refine ⟨[], ?_⟩
    have hword : headWord text = text := by
      rw [← List.append_nil text, headWord_append hnone]
      rfl
    rw [tokens, List.splitOn_eq_singleton hnone, hword]
  · refine ⟨tokens rest, ?_⟩
    have hfirst : headWord (word ++ ' ' :: rest) = word := by
      rw [headWord_append hword]
      exact List.append_nil word
    rw [tokens, List.splitOn_append_cons_self_of_not_mem hword, hfirst, ← tokens]

/-- White space at the end of a text is what `trimEnd` takes away. -/
theorem exists_trimEnd (text : Text) : ∃ blank, text = trimEnd text ++ blank ∧
    (∀ c ∈ blank, isWhiteSpace c = true) ∧
    ∀ c, (trimEnd text).getLast? = some c → isWhiteSpace c = false := by
  refine ⟨(text.reverse.takeWhile isWhiteSpace).reverse, ?_, fun c hc => ?_, fun c hc => ?_⟩
  · rw [trimEnd, ← List.reverse_append, List.takeWhile_append_dropWhile, List.reverse_reverse]
  · exact List.mem_takeWhile_imp (List.mem_reverse.mp hc)
  · rw [trimEnd, List.getLast?_reverse] at hc
    have hnot := List.head?_dropWhile_not isWhiteSpace text.reverse
    rw [hc] at hnot
    simpa using hnot

end Text

/-! ### Spellings of the keyword -/

namespace MacroHeader

open Text

/-- A spelling of the keyword has five letters. -/
theorem letters_of_spells {word : Text} (h : spells word macroKeyword = true) :
    word.length = macroKeyword.length ∧ ∀ c ∈ word, isWhiteSpace c = false ∧ c ≠ ';' := by
  rw [spells, beq_iff_eq] at h
  have hletters := lowerLetters_eq_of_lowercase asciiOnly_macroKeyword h
  refine ⟨by rw [← hletters, length_lowerLetters], fun c hc => ?_⟩
  have hkeyword : c.toLower ∈ macroKeyword := hletters ▸ List.mem_map_of_mem hc
  refine ⟨?_, fun hsemicolon => ?_⟩
  · by_cases hascii : c.toNat < 0x80
    · have hall : ∀ n < 0x80, (Char.ofNat n).toLower ∈ macroKeyword →
          isWhiteSpace (Char.ofNat n) = false := by decide +kernel
      simpa using hall c.toNat hascii (by simpa using hkeyword)
    · rw [Unicode.toLower_of_not_ascii hascii] at hkeyword
      have hall : macroKeyword.all (fun d => isWhiteSpace d == false) = true := by decide
      exact beq_iff_eq.mp (List.all_eq_true.mp hall c hkeyword)
  · rw [hsemicolon] at hkeyword
    exact absurd hkeyword (by decide)

theorem space_notMem_of_spells {word : Text} (h : spells word macroKeyword = true) :
    ' ' ∉ word := by
  intro hmem
  have hnot := ((letters_of_spells h).2 ' ' hmem).1
  exact absurd hnot (by decide)

/-- A line is a header if its second word in normal form is the keyword. -/
theorem recognized_iff_headWord {line : Text} : recognized line = true ↔
    spells (headWord (fromSecondWord (trim (expandTabs line)))) macroKeyword = true := by
  rw [recognized, Text.normalize]
  rcases space_notMem_or (trim (expandTabs line)) with hnone | ⟨word, rest, hword, hline⟩
  · rw [collapseSpaces_of_notMem hnone, tokens, List.splitOn_eq_singleton hnone,
      fromSecondWord_of_notMem hnone]
    have hempty : spells (headWord []) macroKeyword = false := by decide
    rw [hempty]
  · obtain ⟨behind, hbehind⟩ := exists_tokens (collapseSpaces (rest.dropWhile (· = ' ')))
    rw [headWord_collapseSpaces] at hbehind
    rw [hline, collapseSpaces_append hword, collapseSpaces_space, tokens,
      List.splitOn_append_cons_self_of_not_mem hword, ← tokens, hbehind,
      fromSecondWord_append hword, fromSecondWord_space]

/-- A text begins with the keyword of a header, behind which the word ends: a space comes
next, or nothing but white space. -/
def BeginsWithKeyword (text : Text) : Prop :=
  ∃ word rest, text = word ++ rest ∧ spells word macroKeyword = true ∧
    (rest.head? = some ' ' ∨ isBlank rest = true)

/-- A header has two words. -/
theorem space_mem_of_beginsWithKeyword {text : Text}
    (h : BeginsWithKeyword (fromSecondWord text)) : ' ' ∈ text := by
  by_contra hspace
  rw [fromSecondWord_of_notMem hspace] at h
  obtain ⟨word, rest, htext, hword, -⟩ := h
  have hlength := (letters_of_spells hword).1
  rw [(List.append_eq_nil_iff.mp htext.symm).1] at hlength
  exact absurd hlength (by decide)

/-- The first word of a text is the keyword if the keyword stands before a space, or alone. -/
theorem spells_headWord_iff {text : Text} : spells (headWord text) macroKeyword = true ↔
    ∃ word rest, text = word ++ rest ∧ spells word macroKeyword = true ∧
      (rest = [] ∨ rest.head? = some ' ') := by
  constructor
  · intro h
    refine ⟨headWord text, text.dropWhile (· ≠ ' '), List.takeWhile_append_dropWhile.symm, h, ?_⟩
    cases hrest : text.dropWhile (· ≠ ' ') with
    | nil => exact .inl rfl
    | cons c rest =>
      have hnot := List.head?_dropWhile_not (fun c => decide (c ≠ ' ')) text
      rw [hrest] at hnot
      exact .inr (congrArg some (by simpa using hnot))
  · rintro ⟨word, rest, rfl, hword, hrest⟩
    have hhead : headWord rest = [] := by
      rcases hrest with rfl | hspace
      · rfl
      · obtain ⟨rest, rfl⟩ := List.head?_eq_some_iff.mp hspace
        rfl
    rw [headWord_append (space_notMem_of_spells hword), hhead, List.append_nil]
    exact hword

/-- The keyword at the start of a text ends before white space and before a semicolon. -/
theorem exists_between {text behind word rest : Text} (hword : spells word macroKeyword = true)
    (htext : text ++ behind = word ++ rest)
    (hbehind : ∀ c ∈ behind.head?, isWhiteSpace c = true ∨ c = ';') :
    ∃ between, text = word ++ between ∧ rest = between ++ behind := by
  rcases List.append_eq_append_iff.mp htext with ⟨more, hmore, hrest⟩ | hinside
  · cases more with
    | nil => exact ⟨[], by simpa using hmore.symm, by simpa using hrest.symm⟩
    | cons c more =>
      obtain ⟨hdark, hcode⟩ := (letters_of_spells hword).2 c (by simp [hmore])
      rcases hbehind c (by simp [hrest]) with hwhite | hsemicolon
      · rw [hdark] at hwhite
        exact absurd hwhite (by simp)
      · exact absurd hsemicolon hcode
  · exact hinside

/-- White space behind a text that does not end in any makes no difference to its first word,
as long as the keyword is looked for. -/
theorem beginsWithKeyword_append_iff {text blank : Text}
    (hlast : ∀ c, text.getLast? = some c → isWhiteSpace c = false)
    (hblank : ∀ c ∈ blank, isWhiteSpace c = true) :
    BeginsWithKeyword (text ++ blank) ↔ spells (headWord text) macroKeyword = true := by
  rw [spells_headWord_iff]
  constructor
  · rintro ⟨word, rest, htext, hword, hrest⟩
    obtain ⟨between, htext, hbetween⟩ := exists_between hword htext
      fun c hc => .inl (hblank c (List.mem_of_head? hc))
    refine ⟨word, between, htext, hword, ?_⟩
    cases between with
    | nil => exact .inl rfl
    | cons c between =>
      rw [hbetween] at hrest
      rcases hrest with hspace | hwhite
      · exact .inr hspace
      · obtain ⟨d, hd⟩ : ∃ d, (c :: between).getLast? = some d := ⟨_, List.getLast?_cons⟩
        have hend : text.getLast? = some d := by
          rw [htext, List.getLast?_append, hd]
          rfl
        have hdark := hlast d hend
        rw [isBlank, List.all_eq_true] at hwhite
        have hlight := hwhite d (List.mem_append_left _ (List.mem_of_getLast? hd))
        rw [hdark] at hlight
        exact absurd hlight (by simp)
  · rintro ⟨word, rest, rfl, hword, hrest⟩
    refine ⟨word, rest ++ blank, List.append_assoc .., hword, ?_⟩
    rcases hrest with rfl | hspace
    · exact .inr (List.all_eq_true.mpr hblank)
    · obtain ⟨rest, rfl⟩ := List.head?_eq_some_iff.mp hspace
      exact .inl rfl

/-- A line is a header if the keyword begins its second word. -/
theorem recognized_iff {line : Text} : recognized line = true ↔
    BeginsWithKeyword (fromSecondWord (trimStart (expandTabs line))) := by
  rw [recognized_iff_headWord, trim]
  obtain ⟨blank, htext, hblank, hlast⟩ := exists_trimEnd (trimStart (expandTabs line))
  generalize trimEnd (trimStart (expandTabs line)) = trimmed at htext hlast ⊢
  rw [htext]
  by_cases hne : fromSecondWord trimmed = []
  · -- There is no second word at all, only white space.
    have hsuffix : fromSecondWord (trimmed ++ blank) <:+ blank := fromSecondWord_append_suffix hne
    rw [hne, ← List.nil_append (fromSecondWord (trimmed ++ blank))]
    exact (beginsWithKeyword_append_iff (by simp) fun c hc => hblank c (hsuffix.mem hc)).symm
  · rw [fromSecondWord_append_of_ne_nil hne]
    refine (beginsWithKeyword_append_iff (fun c hc => hlast c ?_) hblank).symm
    obtain ⟨front, hfront⟩ := fromSecondWord_suffix trimmed
    rw [← hfront, List.getLast?_append, hc]
    rfl

end MacroHeader

namespace ChunkKind

open Text

variable {line : Text}

/-- A line that is no comment begins a definition if the keyword begins its second word, and
is a statement otherwise. -/
theorem ofHeader_cases (h : (trimStart (expandTabs line)).head? ≠ some ';') :
    (ofHeader line = .macroDef ∧
        MacroHeader.BeginsWithKeyword (fromSecondWord (trimStart (expandTabs line)))) ∨
      (ofHeader line = .statement ∧
        ¬ MacroHeader.BeginsWithKeyword (fromSecondWord (trimStart (expandTabs line)))) := by
  set code := trimStart (expandTabs line)
  have htab : '\t' ∉ code := fun hmem =>
    tab_notMem_expandTabs line ((List.dropWhile_sublist _).mem hmem)
  have hcode : trimStart (expandTabs code) = code := by
    rw [expandTabs_of_notMem htab, trimStart_trimStart]
  have hkind : ofHeader line = if MacroHeader.recognized code then .macroDef else .statement := by
    rw [ofHeader]
    split
    · rename_i rest hline
      exact absurd (congrArg List.head? hline) h
    · rfl
  rw [hkind]
  by_cases hkeyword : MacroHeader.recognized code = true
  · refine .inl ⟨if_pos hkeyword, ?_⟩
    rwa [MacroHeader.recognized_iff, hcode] at hkeyword
  · refine .inr ⟨if_neg hkeyword, ?_⟩
    rwa [MacroHeader.recognized_iff, hcode] at hkeyword

theorem ofHeader_eq_macroDef_iff (h : (trimStart (expandTabs line)).head? ≠ some ';') :
    ofHeader line = .macroDef ↔
      MacroHeader.BeginsWithKeyword (fromSecondWord (trimStart (expandTabs line))) := by
  rcases ofHeader_cases h with ⟨hkind, hkeyword⟩ | ⟨hkind, hkeyword⟩
  · exact iff_of_true hkind hkeyword
  · exact iff_of_false (by simp [hkind]) hkeyword

/-- Lines that are no comments are of one kind if both begin definitions or neither does. -/
theorem ofHeader_eq_iff {other : Text} (h : (trimStart (expandTabs line)).head? ≠ some ';')
    (h' : (trimStart (expandTabs other)).head? ≠ some ';') :
    ofHeader line = ofHeader other ↔ (ofHeader line = .macroDef ↔ ofHeader other = .macroDef) := by
  rcases ofHeader_cases h with ⟨hkind, -⟩ | ⟨hkind, -⟩
  · rw [hkind]
    exact ⟨fun heq => by simp [← heq], fun hiff => (hiff.mp rfl).symm⟩
  · rcases ofHeader_cases h' with ⟨hkind', -⟩ | ⟨hkind', -⟩
    · simp [hkind, hkind']
    · simp [hkind, hkind']

end ChunkKind

end AsmCatalog
