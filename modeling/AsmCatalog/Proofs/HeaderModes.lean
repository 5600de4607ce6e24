/-
The two rules for the parameters of a header, against each other.

The strict rule takes what stands behind the keyword.  The legacy rule takes what stands behind
the first place that spells the keyword before a space, and that is the end of a name that ends
in the keyword.  Then the keyword itself gets in front of the first parameter.

Main statements:
* `MacroHeader.splitParameters_keyword_ne` — the keyword shows up in the parameters;
* `MacroHeader.legacy_eq_strict_iff` — the headers that both modes read alike.
-/
import AsmCatalog.Proofs.ParameterText

namespace AsmCatalog.MacroHeader

open Unicode (isWhiteSpace)
open Text

variable {line name keyword : Text}

theorem comma_notMem_of_spells (h : spells keyword macroKeyword = true) : ',' ∉ keyword := by
  intro hmem
  exact absurd (toLower_mem_of_spells asciiOnly_macroKeyword h hmem) (by decide)

/-- A text that declares parameters does not declare the same ones behind the keyword: its own
characters are in them, and the letters of the keyword besides. -/
theorem splitParameters_keyword_ne (h : spells keyword macroKeyword = true) (rest : Text) :
    splitParameters (keyword ++ ' ' :: rest) ≠ splitParameters rest := by
  intro heq
  have hsame : (keyword ++ ' ' :: rest).filter (fun c => c ≠ ',' && !isWhiteSpace c) =
      rest.filter fun c => c ≠ ',' && !isWhiteSpace c := by
    rw [← filter_flatten_splitParameters, ← filter_flatten_splitParameters, heq]
  have hkeyword : keyword.filter (fun c => c ≠ ',' && !isWhiteSpace c) = keyword := by
    refine List.filter_eq_self.mpr fun c hc => ?_
    have hcomma : c ≠ ',' := by
      rintro rfl
      exact comma_notMem_of_spells h hc
    simp [hcomma, ((letters_of_spells h).2 c hc).1]
  rw [List.filter_append, hkeyword, List.filter_cons_of_neg (by decide)] at hsame
  have hnil : keyword = [] := List.append_left_eq_self.mp hsame
  have hlength := (letters_of_spells h).1
  rw [hnil] at hlength
  exact absurd hlength (by decide)

/-- Both modes read the same name of a header, and they read the same parameters exactly if
nothing stands behind the keyword or the name does not end in it. -/
theorem legacy_eq_strict_iff (h : recognized line = true) :
    ∃ name keyword behind legacy strict,
      tokens (normalize line) = name :: keyword :: behind ∧
      parse? .legacy (normalize line) = some ⟨name, legacy⟩ ∧
      parse? .strict (normalize line) = some ⟨name, strict⟩ ∧
      (legacy = strict ↔ behind = [] ∨ ¬ EndsInKeyword name) := by
  obtain ⟨name, keyword, hname, hkeyword, htwo | ⟨rest, hmore⟩⟩ := exists_words h
  · -- Neither mode looks for parameters.
    refine ⟨name, keyword, [], [], [], ?_, ?_, ?_, ?_⟩
    · rw [htwo, tokens, List.splitOn_append_cons_self_of_not_mem hname,
        List.splitOn_eq_singleton (space_notMem_of_spells hkeyword)]
    · rw [htwo, parse?_of_two hname hkeyword]
    · rw [htwo, parse?_of_two hname hkeyword]
    · exact iff_of_true rfl (.inl rfl)
  · refine ⟨name, keyword, rest.splitOn ' ',
      splitParameters (keptKeyword .legacy name keyword ++ rest),
      splitParameters (keptKeyword .strict name keyword ++ rest), ?_, ?_, ?_, ?_⟩
    · rw [hmore, tokens, List.splitOn_append_cons_self_of_not_mem hname,
        List.splitOn_append_cons_self_of_not_mem (space_notMem_of_spells hkeyword)]
    · rw [hmore, parse?_of_more hname hkeyword]
    · rw [hmore, parse?_of_more hname hkeyword]
    · -- Only the legacy rule keeps the keyword, and only behind such a name.
      rw [or_iff_right (List.splitOn_ne_nil ' ' rest), keptKeyword, keptKeyword, List.nil_append]
      by_cases hends : EndsInKeyword name
      · rw [if_pos hends, List.append_assoc]
        exact iff_of_false (splitParameters_keyword_ne hkeyword rest) (not_not_intro hends)
      · rw [if_neg hends]
        exact iff_of_true rfl hends

/-- The header `setmacro MACRO a,b`. -/
def setmacroHeader : Text :=
  ['s', 'e', 't', 'm', 'a', 'c', 'r', 'o', ' ', 'M', 'A', 'C', 'R', 'O', ' ', 'a', ',', 'b']

theorem legacy_eq_strict_iff_setmacroHeader :
    ∃ name keyword behind legacy strict,
      tokens (normalize setmacroHeader) = name :: keyword :: behind ∧
      parse? .legacy (normalize setmacroHeader) = some ⟨name, legacy⟩ ∧
      parse? .strict (normalize setmacroHeader) = some ⟨name, strict⟩ ∧
      (legacy = strict ↔ behind = [] ∨ ¬ EndsInKeyword name) :=
  legacy_eq_strict_iff (by decide +kernel)

end AsmCatalog.MacroHeader
