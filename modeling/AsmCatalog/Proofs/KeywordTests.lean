/-
What the tests for keywords see of a line.

The end of a macro, the header of a macro and the two kinds of equates are told by a keyword,
which is looked for in the lower case form of the line or of a token.  All of them see the
letters A to Z and nothing else: the keyword stands in a lower case form where the text spells it
in these letters, whatever characters are around them.

Main definitions:
* `Text.Spelling` — a spelling of a word in the letters A to Z;
* `Text.LetterWord` — a word that only its spellings are taken for;
* `ReadByLetters` — the tests of a line find the spellings of their keywords.

Main statements:
* `Text.LetterWord.lowercase_iff` — where such a word stands in the lower case form of a text;
* `Equate.isSome_parse?_iff`, `MacroHeader.recognized_iff_token` — the tests by the second token;
* `readByLetters` — every line is read by its letters.
-/
import AsmCatalog.Proofs.HeaderKeyword
import AsmCatalog.Statement.Equate
import Mathlib.Data.List.Forall2

namespace AsmCatalog

open Unicode (lowercase lowercaseAfter lowercaseBetween)

/-! ### Spellings -/

namespace Text

variable {word text front back : Text} {c : Char}

/-- The text spells the word, letter by letter, in the letters A to Z of either case. -/
def Spelling (word text : Text) : Prop :=
  List.Forall₂ (fun w c => c.isAlpha = true ∧ c.toLower = w) word text

theorem isAlpha_of_toLower (h : c.toLower.isAlpha = true) : c.isAlpha = true := by
  by_cases hc : c.toNat < 0x80
  · have hall : ∀ n < 0x80, (Char.ofNat n).toLower.isAlpha = true →
        (Char.ofNat n).isAlpha = true := by decide +kernel
    simpa using hall c.toNat hc (by simpa using h)
  · rwa [Unicode.toLower_of_not_ascii hc] at h

/-- A word of letters in lower case, each of which is the lower case form of its capital and of no
other character. -/
structure LetterWord (word : Text) : Prop where
  ne_nil : word ≠ []
  asciiOnly : AsciiOnly word
  letters : ∀ w ∈ word, w.isAlpha = true
  lower : lowerLetters word = word

namespace LetterWord

theorem spelling_iff (hw : LetterWord word) : Spelling word text ↔ lowerLetters text = word := by
  constructor
  · intro h
    have hletters : List.Forall₂ Eq (lowerLetters text) word :=
      List.forall₂_map_left_iff.mpr (h.flip.imp fun _ _ hc => hc.2)
    rwa [List.forall₂_eq_eq_eq] at hletters
  · intro h
    subst h
    refine List.forall₂_map_left_iff.mpr (List.forall₂_same.mpr fun c hc => ⟨?_, rfl⟩)
    exact isAlpha_of_toLower (hw.letters _ (List.mem_map_of_mem hc))

theorem spells_iff (hw : LetterWord word) (token : Text) :
    spells token word = true ↔ Spelling word token := by
  rw [spells_eq_sameLetters hw.asciiOnly hw.lower, sameLetters, hw.lower, beq_iff_eq,
    hw.spelling_iff]

theorem mentions_iff (hw : LetterWord word) (text : Text) :
    mentions text word = true ↔ ∃ spelled, spelled <:+: text ∧ Spelling word spelled := by
  rw [Text.mentions_iff hw.ne_nil hw.asciiOnly hw.lower, lowerLetters, List.infix_map_iff]
  simp only [hw.spelling_iff, lowerLetters, eq_comm]

/-- The word stands in the lower case form of a text where the text spells it: what stands
before and behind it there are the forms of what stands before and behind its spelling. -/
theorem lowercase_iff (hw : LetterWord word) :
    lowercase text = front ++ (word ++ back) ↔
      ∃ before spelled after, text = before ++ (spelled ++ after) ∧ Spelling word spelled ∧
        front = lowercaseBetween [] before (spelled ++ after) ∧
        back = lowercaseAfter (before ++ spelled).reverse after := by
  rw [lowercase_eq_iff hw.ne_nil hw.asciiOnly, SpelledAt]
  simp only [hw.spelling_iff, List.reverse_append, List.append_nil]

end LetterWord

end Text

open Text

/-- The keywords of macro headers, of the ends of macros and of equates. -/
def keywords : List Text := [macroKeyword, endKeyword, Equate.equateKeyword]

theorem letterWord_of_mem_keywords {word : Text} (h : word ∈ keywords) : LetterWord word := by
  simp only [keywords, List.mem_cons, List.not_mem_nil, or_false] at h
  rcases h with rfl | rfl | rfl
  · exact ⟨List.cons_ne_nil _ _, asciiOnly_macroKeyword, List.all_eq_true.mp (by decide), rfl⟩
  · exact ⟨List.cons_ne_nil _ _, by simp [AsciiOnly, endKeyword],
      List.all_eq_true.mp (by decide), rfl⟩
  · exact ⟨List.cons_ne_nil _ _, by simp [AsciiOnly, Equate.equateKeyword],
      List.all_eq_true.mp (by decide), rfl⟩

/-! ### Tests by the second token -/

variable {line : Text}

theorem MacroHeader.recognized_iff_token : recognized line = true ↔
    ∃ token, (tokens (normalize line))[1]? = some token ∧ spells token macroKeyword = true := by
  rw [recognized]
  rcases tokens (normalize line) with _ | ⟨name, _ | ⟨keyword, behind⟩⟩
  · simp
  · simp
  · simp

theorem Equate.isSome_parse?_iff (mode : Mode) : (parse? mode line).isSome = true ↔
    3 ≤ (tokens (normalize line)).length ∧
      ∃ token, (tokens (normalize line))[1]? = some token ∧ acceptsKeyword mode token = true := by
  rw [parse?]
  rcases tokens (normalize line) with _ | ⟨name, _ | ⟨keyword, _ | ⟨value, behind⟩⟩⟩
  · simp
  · simp
  · simp
  · -- There are enough tokens, so that the keyword decides.
    by_cases haccepts : acceptsKeyword mode keyword = true
    · simp [haccepts]
    · simp [haccepts]

/-! ### All tests of a line -/

/-- The tests for keywords find them in a line where they are spelled in the letters A to Z, and
so does the search in its lower case form, whatever this makes of other characters. -/
structure ReadByLetters (line : Text) : Prop where
  ends : endsMacro line = true ↔ ∃ spelled, spelled <:+: line ∧ Spelling endKeyword spelled
  header : MacroHeader.recognized line = true ↔
    ∃ token, (tokens (normalize line))[1]? = some token ∧ Spelling macroKeyword token
  parsed : ∀ mode, (MacroHeader.parse? mode (normalize line)).isSome = true ↔
    ∃ token, (tokens (normalize line))[1]? = some token ∧ Spelling macroKeyword token
  legacy : (Equate.parse? .legacy line).isSome = true ↔
    3 ≤ (tokens (normalize line)).length ∧
      ∃ token, (tokens (normalize line))[1]? = some token ∧
        ∃ spelled, spelled <:+: token ∧ Spelling Equate.equateKeyword spelled
  strict : (Equate.parse? .strict line).isSome = true ↔
    3 ≤ (tokens (normalize line)).length ∧
      ∃ token, (tokens (normalize line))[1]? = some token ∧ Spelling Equate.equateKeyword token
  places : ∀ word ∈ keywords, ∀ front back,
    lowercase line = front ++ (word ++ back) ↔
      ∃ before spelled after, line = before ++ (spelled ++ after) ∧ Spelling word spelled ∧
        front = lowercaseBetween [] before (spelled ++ after) ∧
        back = lowercaseAfter (before ++ spelled).reverse after

/-- Every test for a keyword reads a line by the letters A to Z alone. -/
theorem readByLetters (line : Text) : ReadByLetters line := by
  have hmacro : LetterWord macroKeyword := letterWord_of_mem_keywords (by simp [keywords])
  have hend : LetterWord endKeyword := letterWord_of_mem_keywords (by simp [keywords])
  have hequate : LetterWord Equate.equateKeyword :=
    letterWord_of_mem_keywords (by simp [keywords])
  have hheader : MacroHeader.recognized line = true ↔
      ∃ token, (tokens (normalize line))[1]? = some token ∧ Spelling macroKeyword token := by
    simp only [MacroHeader.recognized_iff_token, hmacro.spells_iff]
  refine ⟨hend.mentions_iff line, hheader, fun mode => ?_, ?_, ?_, fun word hword front back => ?_⟩
  · rw [MacroHeader.isSome_parse?_iff, hheader]
  · simp only [Equate.isSome_parse?_iff, Equate.acceptsKeyword, hequate.mentions_iff]
  · simp only [Equate.isSome_parse?_iff, Equate.acceptsKeyword, hequate.spells_iff]
  · exact (letterWord_of_mem_keywords hword).lowercase_iff

end AsmCatalog
