/-
A line that is taken for a macro header is one.

A line is classified by the full lower case mapping of its second token, while
the legacy rule looks for the parameters by the letters A to Z alone.  The two
agree because no other character has `m`, `a`, `c`, `r` or `o` as its lower case
form.

Main statements:
* `MacroHeader.isSome_parse?_iff` — the lines that can be read as headers;
* `MacroHeader.parse?_isSome` — the header of a line that begins a macro definition
  can be read, in either mode.
-/
import AsmCatalog.ChunkKind
import AsmCatalog.Proofs.KeywordLetters
import Mathlib.Data.List.DropRight

namespace AsmCatalog

open Unicode

theorem asciiOnly_macroKeyword : AsciiOnly macroKeyword := by
  simp [AsciiOnly, macroKeyword]

/-! ### Normal forms of a line and of its header -/

namespace Text

theorem expandTabs_of_notMem {text : Text} (h : '\t' ∉ text) : expandTabs text = text := by
  have hid : ∀ c ∈ text, (if c = '\t' then ' ' else c) = id c := by
    intro c hc
    rw [if_neg (by rintro rfl; exact h hc)]
    rfl
  rw [expandTabs, List.map_congr_left hid, List.map_id]

theorem expandTabs_expandTabs (text : Text) : expandTabs (expandTabs text) = expandTabs text :=
  expandTabs_of_notMem (tab_notMem_expandTabs text)

/-- A tab is white space, and so is the space that it becomes. -/
theorem isWhiteSpace_comp_expand :
    (Unicode.isWhiteSpace ∘ fun c => if c = '\t' then ' ' else c) = Unicode.isWhiteSpace := by
  funext c
  by_cases htab : c = '\t'
  · rw [Function.comp_apply, if_pos htab, htab]
    decide
  · rw [Function.comp_apply, if_neg htab]

theorem trimStart_expandTabs (text : Text) :
    trimStart (expandTabs text) = expandTabs (trimStart text) := by
  rw [trimStart, expandTabs, List.dropWhile_map, isWhiteSpace_comp_expand]
  rfl

theorem isBlank_expandTabs (text : Text) : isBlank (expandTabs text) = isBlank text := by
  rw [isBlank, expandTabs, List.all_map, isWhiteSpace_comp_expand, ← isBlank]

theorem trimStart_trimStart (text : Text) : trimStart (trimStart text) = trimStart text := by
  rw [trimStart, trimStart]
  exact List.dropWhile_idempotent _ _

theorem normalize_expandTabs (text : Text) : normalize (expandTabs text) = normalize text := by
  rw [normalize, normalize, expandTabs_expandTabs]

/-- The normal form does not depend on the white space and the tabs that were taken away
to classify a line. -/
theorem normalize_trimStart_expandTabs (text : Text) :
    normalize (trimStart (expandTabs text)) = normalize text := by
  have htab : '\t' ∉ trimStart (expandTabs text) := fun h =>
    tab_notMem_expandTabs text ((List.dropWhile_sublist _).mem h)
  rw [normalize, expandTabs_of_notMem htab, normalize, trim, trimStart_trimStart, ← trim]

end Text

theorem ChunkKind.ofHeader_expandTabs (line : Text) :
    ofHeader (Text.expandTabs line) = ofHeader line := by
  rw [ofHeader, ofHeader, Text.expandTabs_expandTabs]

/-! ### Reading a header -/

namespace MacroHeader

/-- The search finds a word that stands somewhere in some spelling. -/
theorem after?_isSome {word text : Text} (hne : word ≠ [])
    (h : ∃ before spelling rest, text = before ++ spelling ++ rest ∧
      Text.lowerLetters spelling = word) : (after? word text).isSome := by
  obtain ⟨before, spelling, rest, rfl, hs⟩ := h
  have hlen : word.length = spelling.length := by rw [← hs]; simp
  induction before with
  | nil =>
    cases spelling with
    | nil => exact absurd hs.symm hne
    | cons c more =>
      rw [List.nil_append, List.cons_append, after?, ← List.cons_append, hlen,
        List.take_left, if_pos hs]
      rfl
  | cons c before ih =>
    rw [List.cons_append, List.cons_append, after?]
    split
    · rfl
    · exact ih

/-- The keyword and a space behind it are what the search looks for. -/
theorem lowerLetters_of_spells {keyword : Text} (h : Text.spells keyword macroKeyword = true) :
    Text.lowerLetters (keyword ++ [' ']) = macroKeyword ++ [' '] := by
  rw [Text.spells, beq_iff_eq] at h
  rw [Text.lowerLetters_append, Text.lowerLetters_eq_of_lowercase asciiOnly_macroKeyword h]
  rfl

/-- A header whose second token is the keyword can be read. -/
theorem parse?_isSome_of_recognized {line : Text} (mode : Mode)
    (h : recognized line = true) : (parse? mode (Text.normalize line)).isSome := by
  rw [recognized] at h
  split at h
  · rename_i name keyword behind htokens
    rw [parse?, htokens]
    simp only [h, if_true]
    cases behind with
    | nil => rfl
    | cons first more =>
      cases mode with
      | strict => rfl
      | legacy =>
        have hheader : Text.normalize line =
            (name ++ [' ']) ++ (keyword ++ [' ']) ++ [' '].intercalate (first :: more) := by
          have hsplit : [' '].intercalate (Text.tokens (Text.normalize line)) =
              Text.normalize line := List.intercalate_splitOn ' '
          rw [← hsplit, htokens]
          simp [List.intercalate_cons_cons]
        have hfound := after?_isSome (by simp) ⟨_, _, _, hheader, lowerLetters_of_spells h⟩
        simpa [parameterText?] using hfound
  · exact absurd h (by simp)

/-- Only a header can be read. -/
theorem recognized_of_parse? {line : Text} {mode : Mode} {header : MacroHeader}
    (h : parse? mode (Text.normalize line) = some header) : recognized line = true := by
  rw [parse?] at h
  rw [recognized]
  split at h
  · rename_i name keyword behind htokens
    by_contra hkeyword
    rw [if_neg hkeyword] at h
    exact absurd h (by simp)
  · exact absurd h (by simp)

/-- No header that is recognized is malformed, and no other line can be read as one. -/
theorem isSome_parse?_iff {line : Text} (mode : Mode) :
    (parse? mode (Text.normalize line)).isSome = true ↔ recognized line = true := by
  constructor
  · intro h
    obtain ⟨header, hheader⟩ := Option.isSome_iff_exists.mp h
    exact recognized_of_parse? hheader
  · exact parse?_isSome_of_recognized mode

end MacroHeader

/-- The header of a line that begins a macro definition can be read, in either mode. -/
theorem MacroHeader.parse?_isSome {line : Text} (mode : Mode)
    (h : ChunkKind.ofHeader line = .macroDef) :
    (MacroHeader.parse? mode (Text.normalize line)).isSome := by
  rw [ChunkKind.ofHeader] at h
  split at h
  · exact absurd h (by simp)
  · rw [← Text.normalize_trimStart_expandTabs]
    by_cases hr : MacroHeader.recognized (Text.trimStart (Text.expandTabs line)) = true
    · exact MacroHeader.parse?_isSome_of_recognized mode hr
    · rw [if_neg hr] at h
      exact absurd h (by simp)

end AsmCatalog
