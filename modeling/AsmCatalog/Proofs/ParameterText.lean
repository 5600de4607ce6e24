/-
The part of a macro header that declares parameters.

It follows the keyword, or by the legacy rule the first place that spells the keyword before a
space, which may be the end of the name.  What comes behind a header that goes on behind its
keyword belongs to it.

Main definitions:
* `MacroHeader.EndsInKeyword` — a name ends in the keyword;
* `MacroHeader.keptKeyword` — what a mode keeps of the keyword of a header.

Main statements:
* `MacroHeader.after?_append` — the first place of a word stays the first one;
* `MacroHeader.parse?_of_more` — the parameters that a header declares, by what is behind its
  keyword;
* `MacroHeader.exists_words` — the name and the keyword of a header;
* `MacroHeader.filter_flatten_splitParameters` — the characters of the parameters.
-/
import AsmCatalog.Proofs.HeaderOffset
import AsmCatalog.Proofs.SpacedText

namespace AsmCatalog.MacroHeader

open Unicode (isWhiteSpace)
open Text

variable {mode : Mode} {text word name keyword rest behind : Text} {c : Char}

/-! ### The search for the keyword -/

/-- What comes behind a text does not change where a word stands first in it. -/
theorem after?_append (hne : word ≠ []) (h : after? word text = some rest) (behind : Text) :
    after? word (text ++ behind) = some (rest ++ behind) := by
  have hlength : word.length ≤ text.length := by
    obtain ⟨front, spelling, htext, hword, -⟩ := after?_spec hne h
    rw [htext, ← hword, length_lowerLetters, List.length_append, List.length_append]
    omega
  induction text with
  | nil => exact absurd (List.length_eq_zero_iff.mp (Nat.le_zero.mp hlength)) hne
  | cons c text ih =>
    rw [List.cons_append, after?, ← List.cons_append, List.take_append_of_le_length hlength,
      List.drop_append_of_le_length hlength]
    rw [after?] at h
    split at h
    · rename_i hspelled
      rw [if_pos hspelled, ← Option.some.inj h]
    · rename_i hspelled
      have hshort : word.length ≤ text.length := by
        obtain ⟨front, spelling, htext, hword, -⟩ := after?_spec hne h
        rw [htext, ← hword, length_lowerLetters, List.length_append, List.length_append]
        omega
      rw [if_neg hspelled, ih h hshort]

theorem eq_space_of_toLower (h : c.toLower = ' ') : c = ' ' := by
  by_cases hascii : c.toNat < 0x80
  · have hall : ∀ n < 0x80, (Char.ofNat n).toLower = ' ' → Char.ofNat n = ' ' := by decide +kernel
    simpa using hall c.toNat hascii (by simpa using h)
  · exact (Unicode.toLower_of_not_ascii hascii).symm.trans h

/-- The first place in a header of two words that spells the keyword before a space is the end
of the name, or is the keyword. -/
theorem after?_cases (hname : ' ' ∉ name) (hkeyword : spells keyword macroKeyword = true) :
    ∃ kept, (kept = [] ∨ kept = keyword ++ [' ']) ∧
      after? (macroKeyword ++ [' ']) (name ++ ' ' :: (keyword ++ [' '])) = some kept := by
  have hfound : (after? (macroKeyword ++ [' ']) (name ++ ' ' :: (keyword ++ [' ']))).isSome :=
    after?_isSome (by simp) ⟨name ++ [' '], keyword ++ [' '], [], by simp,
      lowerLetters_of_spells hkeyword⟩
  obtain ⟨kept, hkept⟩ := Option.isSome_iff_exists.mp hfound
  refine ⟨kept, ?_, hkept⟩
  obtain ⟨front, spelling, htext, hspelling, -⟩ := after?_spec (by simp) hkept
  -- The spelling ends in a space, which is one of the two.
  obtain ⟨letters, last, rfl, hdefinition, hlast⟩ := List.map_eq_append_iff.mp hspelling
  obtain ⟨d, rfl, hd⟩ := List.map_eq_singleton_iff.mp hlast
  obtain rfl := eq_space_of_toLower hd
  have hparts : (front ++ letters).splitOn ' ' ++ kept.splitOn ' ' = [name, keyword, []] := by
    rw [← List.splitOn_append_cons_self, List.append_assoc, ← List.singleton_append,
      ← List.append_assoc letters, ← htext, List.splitOn_append_cons_self_of_not_mem hname,
      List.splitOn_append_cons_self_of_not_mem (space_notMem_of_spells hkeyword)]
    rfl
  have hjoined : [' '].intercalate (kept.splitOn ' ') = kept := List.intercalate_splitOn ' '
  rcases List.append_eq_cons_iff.mp hparts with ⟨hnil, -⟩ | ⟨more, -, hmore⟩
  · exact absurd hnil (List.splitOn_ne_nil ' ' _)
  · rcases List.append_eq_cons_iff.mp hmore.symm with ⟨-, hkeyword⟩ | ⟨more', -, hmore'⟩
    · right
      rw [← hjoined, hkeyword]
      rfl
    · left
      rcases List.append_eq_singleton_iff.mp hmore'.symm with ⟨-, hnone⟩ | ⟨-, hnone⟩
      · rw [← hjoined, hnone]
        rfl
      · exact absurd hnone (List.splitOn_ne_nil ' ' _)

/-- A name ends in the keyword, in either case of its letters. -/
def EndsInKeyword (name : Text) : Prop := macroKeyword <:+ lowerLetters name

instance (name : Text) : Decidable (EndsInKeyword name) :=
  inferInstanceAs (Decidable (macroKeyword <:+ lowerLetters name))

/-- The first place that spells the keyword before a space is the end of the name if the name
ends in the keyword. -/
theorem after?_of_words (hname : ' ' ∉ name) (hkeyword : spells keyword macroKeyword = true) :
    after? (macroKeyword ++ [' ']) (name ++ ' ' :: (keyword ++ [' '])) =
      some (if EndsInKeyword name then keyword ++ [' '] else []) := by
  obtain ⟨kept, hkept, hafter⟩ := after?_cases hname hkeyword
  obtain ⟨front, spelling, htext, hspelling, hfirst⟩ := after?_spec (by simp) hafter
  rw [hafter, Option.some.injEq]
  rcases hkept with rfl | rfl
  · -- A name that ends in the keyword would have an earlier place.
    refine (if_neg ?_).symm
    rintro ⟨before, hbefore⟩
    have hlower : lowerLetters (name ++ ' ' :: (keyword ++ [' '])) =
        before ++ ((macroKeyword ++ [' ']) ++ lowerLetters (keyword ++ [' '])) := by
      have hspace : lowerLetters (' ' :: (keyword ++ [' '])) =
          ' ' :: lowerLetters (keyword ++ [' ']) := rfl
      rw [lowerLetters_append, hspace, ← hbefore]
      simp
    have hlength : before.length + macroKeyword.length = name.length := by
      rw [← length_lowerLetters name, ← hbefore, List.length_append]
    have hplaces : front.length + (macroKeyword.length + 1) =
        name.length + (macroKeyword.length + 2) := by
      have hword : spelling.length = macroKeyword.length + 1 := by
        rw [← length_lowerLetters spelling, hspelling, List.length_append]
        rfl
      have htotal := congrArg List.length htext
      simp only [List.append_nil, List.length_append, List.length_cons, List.length_nil] at htotal
      rw [(letters_of_spells hkeyword).1] at htotal
      omega
    refine hfirst before.length (by omega) ?_
    rw [hlower, List.drop_left]
    exact List.prefix_append ..
  · refine (if_pos ?_).symm
    have hword : name ++ [' '] = front ++ spelling := by
      have hboth : (name ++ [' ']) ++ (keyword ++ [' ']) =
          (front ++ spelling) ++ (keyword ++ [' ']) := by
        rw [List.append_assoc, List.append_assoc]
        exact htext
      exact List.append_cancel_right hboth
    have hlower : lowerLetters name ++ [' '] = (lowerLetters front ++ macroKeyword) ++ [' '] := by
      have hspace : lowerLetters [' '] = [' '] := rfl
      rw [List.append_assoc, ← hspelling, ← lowerLetters_append, ← hword, lowerLetters_append,
        hspace]
    exact ⟨lowerLetters front, (List.append_cancel_right hlower).symm⟩

/-! ### Reading a header by its words -/

/-- A header of two words declares no parameters. -/
theorem parse?_of_two (hname : ' ' ∉ name) (hkeyword : spells keyword macroKeyword = true) :
    parse? mode (name ++ ' ' :: keyword) = some ⟨name, []⟩ := by
  rw [parse?, tokens, List.splitOn_append_cons_self_of_not_mem hname,
    List.splitOn_eq_singleton (space_notMem_of_spells hkeyword)]
  exact if_pos hkeyword

/-- What a mode keeps of the keyword in front of the text that declares the parameters: the
legacy rule keeps the keyword of a name that ends in it. -/
def keptKeyword (mode : Mode) (name keyword : Text) : Text :=
  match mode with
  | .legacy => if EndsInKeyword name then keyword ++ [' '] else []
  | .strict => []

/-- What stands behind the keyword of a header declares its parameters, together with what the
mode keeps of the keyword. -/
theorem parse?_of_more (hname : ' ' ∉ name) (hkeyword : spells keyword macroKeyword = true)
    (mode : Mode) (rest : Text) : parse? mode (name ++ ' ' :: (keyword ++ ' ' :: rest)) =
      some ⟨name, splitParameters (keptKeyword mode name keyword ++ rest)⟩ := by
  have hparts : tokens (name ++ ' ' :: (keyword ++ ' ' :: rest)) =
      name :: keyword :: rest.splitOn ' ' := by
    rw [tokens, List.splitOn_append_cons_self_of_not_mem hname,
      List.splitOn_append_cons_self_of_not_mem (space_notMem_of_spells hkeyword)]
  have hsome : (rest.splitOn ' ').isEmpty = false := by simp
  rw [parse?, hparts]
  cases mode with
  | strict =>
    have hjoined : [' '].intercalate (rest.splitOn ' ') = rest := List.intercalate_splitOn ' '
    simp only [hkeyword, hsome, parameterText?, hjoined]
    rfl
  | legacy =>
    have hafter : after? (macroKeyword ++ [' ']) (name ++ ' ' :: (keyword ++ ' ' :: rest)) =
        some (keptKeyword .legacy name keyword ++ rest) := by
      rw [keptKeyword, ← after?_append (by simp) (after?_of_words hname hkeyword) rest]
      simp
    simp only [hkeyword, hsome, parameterText?, hafter]
    rfl

theorem keptKeyword_cases (mode : Mode) (name keyword : Text) :
    keptKeyword mode name keyword = [] ∨ keptKeyword mode name keyword = keyword ++ [' '] := by
  rw [keptKeyword.eq_def]
  split
  · split
    · exact .inr rfl
    · exact .inl rfl
  · exact .inl rfl

/-- The text that declares the parameters is a part of the header. -/
theorem mem_of_mem_kept {kept : Text} (hkept : kept = [] ∨ kept = keyword ++ [' '])
    (hc : c ∈ kept ++ rest) : c ∈ name ++ ' ' :: (keyword ++ ' ' :: rest) := by
  have hsuffix : kept ++ rest <:+ keyword ++ ' ' :: rest := by
    rcases hkept with rfl | rfl
    · exact ⟨keyword ++ [' '], by simp⟩
    · exact ⟨[], by simp⟩
  exact List.mem_append_right _ (List.mem_cons_of_mem _ (hsuffix.mem hc))

/-- A header has a name and the keyword, and nothing else or a space next. -/
theorem exists_words {line : Text} (h : recognized line = true) :
    ∃ name keyword, ' ' ∉ name ∧ spells keyword macroKeyword = true ∧
      (normalize line = name ++ ' ' :: keyword ∨
        ∃ rest, normalize line = name ++ ' ' :: (keyword ++ ' ' :: rest)) := by
  rw [recognized] at h
  rcases space_notMem_or (normalize line) with hnone | ⟨name, behind, hname, hline⟩
  · rw [tokens, List.splitOn_eq_singleton hnone] at h
    exact absurd h (by simp)
  · rw [hline, tokens, List.splitOn_append_cons_self_of_not_mem hname] at h
    refine ⟨name, headWord behind, hname, ?_, ?_⟩
    · obtain ⟨more, hbehind⟩ := exists_tokens behind
      rw [tokens] at hbehind
      rwa [hbehind] at h
    · rcases space_notMem_or behind with hnone | ⟨keyword, rest, hkeyword, rfl⟩
      · left
        rw [hline, ← List.append_nil behind, headWord_append hnone]
        simp [headWord]
      · right
        refine ⟨rest, ?_⟩
        rw [hline, headWord_append hkeyword]
        simp [headWord]

/-! ### The characters of parameters -/

theorem filter_trim (text : Text) :
    (trim text).filter (!isWhiteSpace ·) = text.filter (!isWhiteSpace ·) := by
  obtain ⟨front, back, htext, hfront, hback⟩ := exists_trim text
  have hnone : ∀ white : Text, (∀ c ∈ white, isWhiteSpace c = true) →
      white.filter (!isWhiteSpace ·) = [] := by
    intro white hwhite
    exact List.filter_eq_nil_iff.mpr fun c hc => by simp [hwhite c hc]
  conv_rhs => rw [htext]
  rw [List.filter_append, List.filter_append, hnone front hfront, hnone back hback,
    List.nil_append, List.append_nil]

/-- The parameters hold the characters of the text that declares them, but for commas and some
white space. -/
theorem filter_flatten_splitParameters (text : Text) :
    (splitParameters text).flatten.filter (!isWhiteSpace ·) =
      text.filter fun c => c ≠ ',' && !isWhiteSpace c := by
  have htrimmed : ∀ parts : List Text, (parts.map trim).flatten.filter (!isWhiteSpace ·) =
      parts.flatten.filter (!isWhiteSpace ·) := by
    intro parts
    induction parts with
    | nil => rfl
    | cons part parts ih =>
      rw [List.map_cons, List.flatten_cons, List.flatten_cons, List.filter_append,
        List.filter_append, filter_trim, ih]
  rw [splitParameters, List.flatten_filter_ne_nil, htrimmed, flatten_splitOn, List.filter_filter]
  exact List.filter_congr fun c _ => Bool.and_comm ..

/-- A character other than a comma and white space is in one of the parameters if it is in the
text that declares them. -/
theorem exists_mem_splitParameters_iff (hcomma : c ≠ ',') (hdark : isWhiteSpace c = false) :
    (∃ p ∈ splitParameters text, c ∈ p) ↔ c ∈ text := by
  have hkept : c ∈ (splitParameters text).flatten.filter (!isWhiteSpace ·) ↔ c ∈ text := by
    rw [filter_flatten_splitParameters, List.mem_filter]
    simp [hcomma, hdark]
  rw [← hkept, List.mem_filter, List.mem_flatten]
  simp [hdark]

end AsmCatalog.MacroHeader
