/-
Writing macro headers, and reading them back.

A header can be laid out in many ways: blanks stand at both ends of its line, between its words
and around its commas, and the keyword has upper and lower case letters.  The normal form of the
line keeps at most one space of each gap, and the parameters are trimmed, so that the header is
read back as it is.

Main definitions:
* `Text.IsPhrase` — a text that is its own normal form;
* `MacroHeader.Writable` — a header whose name and parameters can be told apart on a line;
* `MacroHeader.Lists`, `MacroHeader.Writes` — the layouts of parameters and of a header.

Main statements:
* `Text.IsPhrase.normalize_append` — a text behind such a phrase does not change it;
* `MacroHeader.splitParameters_of_lists` — the parameters are read back;
* `MacroHeader.wellFormed_of_mem_splitParameters` — what a parameter looks like;
* `MacroHeader.parse?_inverts_writes` — the header is read back.
-/
import AsmCatalog.Proofs.KeywordLetters
import AsmCatalog.Proofs.ParameterText

namespace AsmCatalog

open Unicode (isWhiteSpace)

namespace Text

variable {text : Text}

/-! ### Phrases -/

/-- A text with something in it that is its own normal form. -/
structure IsPhrase (text : Text) : Prop where
  ne_nil : text ≠ []
  tab_notMem : '\t' ∉ text
  no_spaces : ¬ [' ', ' '] <:+: text
  trim_eq : trim text = text

theorem IsWord.isPhrase (h : IsWord text) : IsPhrase text where
  ne_nil := h.ne_nil
  tab_notMem := h.tab_notMem
  no_spaces := fun hspaces => h.space_notMem (hspaces.mem List.mem_cons_self)
  trim_eq := h.trim_eq

theorem collapseSpaces_of_no_spaces (h : ¬ [' ', ' '] <:+: text) : collapseSpaces text = text := by
  induction text with
  | nil => rfl
  | cons c rest ih =>
    have hrest : ¬ [' ', ' '] <:+: rest := fun hspaces => h (List.infix_cons hspaces)
    have hedge : ¬ (c = ' ' ∧ rest.head? = some ' ') := by
      rintro ⟨rfl, hspace⟩
      obtain ⟨rest, rfl⟩ := List.head?_eq_some_iff.mp hspace
      exact h ⟨[], rest, rfl⟩
    rw [collapseSpaces_cons, if_neg hedge, ih hrest]

namespace IsPhrase

theorem beginsDark_append (h : IsPhrase text) (back : Text) : BeginsDark (text ++ back) :=
  (h.trim_eq ▸ beginsDark_trim text : BeginsDark text).append h.ne_nil back

theorem append_ne_nil (h : IsPhrase text) (back : Text) : text ++ back ≠ [] :=
  List.append_ne_nil_of_left_ne_nil h.ne_nil back

theorem trimEnd_eq (h : IsPhrase text) : trimEnd text = text := by
  have hstart := h.beginsDark_append []
  rw [List.append_nil] at hstart
  have htrim := h.trim_eq
  rwa [trim, trimStart_of_beginsDark hstart] at htrim

theorem trimEnd_append (h : IsPhrase text) (back : Text) :
    trimEnd (text ++ back) = text ++ trimEnd back := by
  by_cases hback : trimEnd back = []
  · have hwhite : ∀ c ∈ back, isWhiteSpace c = true := by
      rw [trimEnd, List.reverse_eq_nil_iff, List.dropWhile_eq_nil_iff] at hback
      simpa using hback
    rw [Text.trimEnd_append hwhite, h.trimEnd_eq, hback, List.append_nil]
  · exact trimEnd_append_of_ne_nil hback

/-- A phrase at the front of a text stands at the front of its normal form. -/
theorem normalize_append (h : IsPhrase text) (back : Text) :
    normalize (text ++ back) = text ++ normalRest back := by
  have hedge : text.getLast? = some ' ' → (trimEnd (expandTabs back)).head? ≠ some ' ' := by
    intro hspace
    -- A phrase does not end in white space.
    obtain ⟨-, -, -, hdark⟩ := exists_trimEnd text
    rw [h.trimEnd_eq] at hdark
    exact absurd (hdark ' ' hspace) (by decide)
  rw [normalize, expandTabs_append, expandTabs_of_notMem h.tab_notMem, trim,
    trimStart_of_beginsDark (h.beginsDark_append (expandTabs back)), h.trimEnd_append,
    collapseSpaces_append_of_edge hedge, collapseSpaces_of_no_spaces h.no_spaces, normalRest]

end IsPhrase

end Text

namespace MacroHeader

open Text

variable {mode : Mode} {header : MacroHeader} {line text front p : Text} {parameters : List Text}

/-! ### Layouts -/

/-- What a header can declare as a parameter, whatever its layout. -/
structure IsParameter (p : Text) : Prop extends IsPhrase p where
  comma_notMem : ',' ∉ p

/-- The name of a header is a word, and its parameters can be told apart. -/
structure Writable (header : MacroHeader) : Prop where
  name : IsWord header.name
  parameters : ∀ p ∈ header.parameters, IsParameter p

/-- The text lists the parameters, with blanks around the commas and at its end. -/
inductive Lists : List Text → Text → Prop
  | last {p back : Text} : Blanks back → Lists [p] (p ++ back)
  | cons {p before after : Text} {parameters : List Text} {text : Text} :
      Blanks before → Blanks after → Lists parameters text →
      Lists (p :: parameters) (p ++ (before ++ ',' :: (after ++ text)))

/-- The text is a spelling of the keyword in upper and lower case letters. -/
def IsKeyword (keyword : Text) : Prop := lowerLetters keyword = macroKeyword

/-- The line is the header in one of its layouts. -/
inductive Writes (header : MacroHeader) : Text → Prop
  | bare {front gap keyword back : Text} : header.parameters = [] →
      Blanks front → Blanks gap → gap ≠ [] → IsKeyword keyword → Blanks back →
      Writes header (front ++ (header.name ++ (gap ++ (keyword ++ back))))
  | declaring {front gap keyword gap' text : Text} :
      Blanks front → Blanks gap → gap ≠ [] → IsKeyword keyword → Blanks gap' → gap' ≠ [] →
      Lists header.parameters text →
      Writes header (front ++ (header.name ++ (gap ++ (keyword ++ (gap' ++ text)))))

theorem spells_of_isKeyword {keyword : Text} (h : IsKeyword keyword) :
    spells keyword macroKeyword = true := by
  rw [spells_eq_sameLetters asciiOnly_macroKeyword rfl, sameLetters, beq_iff_eq]
  exact h

/-! ### Reading parameters -/

theorem splitParameters_singleton (hcomma : ',' ∉ p) (htrim : trim p ≠ []) :
    splitParameters p = [trim p] := by
  rw [splitParameters, List.splitOn_eq_singleton hcomma]
  exact List.filter_cons_of_pos (decide_eq_true htrim)

theorem splitParameters_cons (hcomma : ',' ∉ p) (htrim : trim p ≠ []) (rest : Text) :
    splitParameters (p ++ ',' :: rest) = trim p :: splitParameters rest := by
  rw [splitParameters, List.splitOn_append_cons_self_of_not_mem hcomma]
  exact List.filter_cons_of_pos (decide_eq_true htrim)

/-- White space in front of the parameters is not in any of them. -/
theorem splitParameters_append (hfront : ∀ c ∈ front, isWhiteSpace c = true) (text : Text) :
    splitParameters (front ++ text) = splitParameters text := by
  have hcomma : ',' ∉ front := fun hmem => absurd (hfront ',' hmem) (by decide)
  have htrim : ∀ part, trim (front ++ part) = trim part := by
    intro part
    rw [trim, trimStart_append hfront, ← trim]
  -- The white space goes to the first part, which is trimmed.
  by_cases hmem : ',' ∈ text
  · obtain ⟨part, rest, rfl, hpart⟩ := List.eq_append_cons_of_mem hmem
    have hboth : ',' ∉ front ++ part := List.not_mem_append hcomma hpart
    rw [splitParameters, splitParameters, ← List.append_assoc,
      List.splitOn_append_cons_self_of_not_mem hboth,
      List.splitOn_append_cons_self_of_not_mem hpart, List.map_cons, List.map_cons, htrim]
  · have hboth : ',' ∉ front ++ text := List.not_mem_append hcomma hmem
    rw [splitParameters, splitParameters, List.splitOn_eq_singleton hboth,
      List.splitOn_eq_singleton hmem, List.map_singleton, List.map_singleton, htrim]

theorem beginsDark_of_lists (h : Lists parameters text)
    (hparameters : ∀ p ∈ parameters, IsParameter p) : BeginsDark text ∧ text ≠ [] := by
  cases h with
  | last _ =>
    have hp := (hparameters _ List.mem_cons_self).toIsPhrase
    exact ⟨hp.beginsDark_append _, hp.append_ne_nil _⟩
  | cons _ _ _ =>
    have hp := (hparameters _ List.mem_cons_self).toIsPhrase
    exact ⟨hp.beginsDark_append _, hp.append_ne_nil _⟩

/-- Listed parameters are read back. -/
theorem splitParameters_of_lists (h : Lists parameters text)
    (hparameters : ∀ p ∈ parameters, IsParameter p) :
    splitParameters (normalize text) = parameters := by
  induction h with
  | @last p back hback =>
    have hp := hparameters p List.mem_cons_self
    have htrim := hp.trim_eq
    rw [hp.normalize_append, normalRest_of_blanks hback, List.append_nil,
      splitParameters_singleton hp.comma_notMem (htrim.symm ▸ hp.ne_nil), htrim]
  | @cons p before after parameters text hbefore hafter hlists ih =>
    have hp := hparameters p List.mem_cons_self
    have hrest : ∀ q ∈ parameters, IsParameter q := fun q hq =>
      hparameters q (List.mem_cons_of_mem _ hq)
    obtain ⟨hdark, hne⟩ := beginsDark_of_lists hlists hrest
    -- One space at most is left on either side of the comma.
    have hnormal : normalize (p ++ (before ++ ',' :: (after ++ text))) =
        (p ++ spaceFor before) ++ ',' :: (spaceFor after ++ normalize text) := by
      rw [hp.normalize_append, normalRest_append hbefore (beginsDark_cons (by decide) _)
        (List.cons_ne_nil _ _), normalize_cons_eq (by decide), ← normalRest,
        normalRest_append hafter hdark hne, List.append_assoc]
    have htrim : trim (p ++ spaceFor before) = p := by
      have hwhite : trim ([] ++ p ++ spaceFor before) = trim p :=
        trim_append (by simp) fun c hc => isWhiteSpace_of_mem_spaceFor hc
      rwa [List.nil_append, hp.trim_eq] at hwhite
    have hcomma : ',' ∉ p ++ spaceFor before := List.not_mem_append hp.comma_notMem fun hc =>
      absurd (isWhiteSpace_of_mem_spaceFor hc) (by decide)
    rw [hnormal, splitParameters_cons hcomma (htrim.symm ▸ hp.ne_nil), htrim,
      splitParameters_append fun c hc => isWhiteSpace_of_mem_spaceFor hc, ih hrest]

/-! ### Reading headers -/

/-- The header is written with this keyword, and nothing or the list of its parameters behind. -/
theorem exists_normalize_of_writes (hheader : Writable header) (h : Writes header line) :
    ∃ keyword, spells keyword macroKeyword = true ∧
      ((header.parameters = [] ∧ normalize line = header.name ++ ' ' :: keyword) ∨
        ∃ text, Lists header.parameters text ∧
          normalize line = header.name ++ ' ' :: (keyword ++ ' ' :: normalize text)) := by
  have hname := hheader.name.isPhrase
  -- Both words are phrases, so that the gaps around them are read one by one.
  have hwords : ∀ front gap keyword back, Blanks front → Blanks gap → gap ≠ [] →
      spells keyword macroKeyword = true →
      normalize (front ++ (header.name ++ (gap ++ (keyword ++ back)))) =
        header.name ++ ' ' :: (keyword ++ normalRest back) := by
    intro front gap keyword back hfront hgap hne hkeyword
    have hphrase := (isWord_of_spells hkeyword).isPhrase
    rw [normalize_append_blanks hfront, hname.normalize_append,
      normalRest_append hgap (hphrase.beginsDark_append back) (hphrase.append_ne_nil back),
      spaceFor, if_neg hne, hphrase.normalize_append]
    rfl
  cases h with
  | @bare front gap keyword back hnone hfront hgap hne hkeyword hback =>
    have hspells := spells_of_isKeyword hkeyword
    refine ⟨keyword, hspells, .inl ⟨hnone, ?_⟩⟩
    rw [hwords front gap keyword back hfront hgap hne hspells, normalRest_of_blanks hback,
      List.append_nil]
  | @declaring front gap keyword gap' text hfront hgap hne hkeyword hgap' hne' hlists =>
    have hspells := spells_of_isKeyword hkeyword
    obtain ⟨hdark, hsome⟩ := beginsDark_of_lists hlists hheader.parameters
    refine ⟨keyword, hspells, .inr ⟨text, hlists, ?_⟩⟩
    rw [hwords front gap keyword _ hfront hgap hne hspells, normalRest_append hgap' hdark hsome,
      spaceFor, if_neg hne']
    rfl

theorem not_lists_nil : ¬ Lists [] text := nofun

/-- A header is read back from its layouts. -/
theorem parse?_of_writes (hheader : Writable header) (h : Writes header line)
    (hmode : mode = .legacy → ¬ EndsInKeyword header.name ∨ header.parameters = []) :
    parse? mode (normalize line) = some header := by
  obtain ⟨keyword, hkeyword, ⟨hnone, hline⟩ | ⟨text, hlists, hline⟩⟩ :=
    exists_normalize_of_writes hheader h
  · rw [hline, parse?_of_two hheader.name.space_notMem hkeyword, ← hnone]
  · have hkept : keptKeyword mode header.name keyword = [] := by
      cases mode with
      | strict => rfl
      | legacy =>
        rcases hmode rfl with hends | hnone
        · exact if_neg hends
        · rw [hnone] at hlists
          exact absurd hlists not_lists_nil
    rw [hline, parse?_of_more hheader.name.space_notMem hkeyword, hkept, List.nil_append,
      splitParameters_of_lists hlists hheader.parameters]

/-! ### What is read -/

theorem mem_of_mem_splitParameters {c : Char} (hp : p ∈ splitParameters text) (hc : c ∈ p) :
    c ∈ text ∧ c ≠ ',' := by
  obtain ⟨part, hpart, rfl⟩ := List.mem_map.mp (List.mem_of_mem_filter hp)
  have hflat : c ∈ (text.splitOn ',').flatten :=
    List.mem_flatten_of_mem hpart (mem_of_mem_trim hc)
  rw [flatten_splitOn] at hflat
  exact ⟨List.mem_of_mem_filter hflat, by simpa using (List.mem_filter.mp hflat).2⟩

/-- A parameter has something in it, no comma, and no white space at its ends. -/
theorem wellFormed_of_mem_splitParameters (hp : p ∈ splitParameters text) :
    p ≠ [] ∧ ',' ∉ p ∧ trim p = p := by
  refine ⟨by simpa using (List.mem_filter.mp hp).2, ?_, ?_⟩
  · intro hcomma
    exact (mem_of_mem_splitParameters hp hcomma).2 rfl
  · obtain ⟨part, -, rfl⟩ := List.mem_map.mp (List.mem_of_mem_filter hp)
    exact trim_trim part

/-- A header declares parameters in a part of its normal form, if at all. -/
theorem exists_of_parse? (h : parse? mode (normalize line) = some header) :
    header.parameters = [] ∨
      ∃ text, header.parameters = splitParameters text ∧ ∀ c ∈ text, c ∈ normalize line := by
  obtain ⟨name, keyword, hname, hkeyword, htwo | ⟨rest, hmore⟩⟩ :=
    exists_words (recognized_of_parse? h)
  · left
    rw [htwo, parse?_of_two hname hkeyword] at h
    rw [← Option.some.inj h]
  · right
    refine ⟨keptKeyword mode name keyword ++ rest, ?_, fun c hc => ?_⟩
    · rw [hmore, parse?_of_more hname hkeyword] at h
      rw [← Option.some.inj h]
    · rw [hmore]
      exact mem_of_mem_kept (keptKeyword_cases mode name keyword) hc

theorem wellFormed_of_parse? (h : parse? mode (normalize line) = some header)
    (hp : p ∈ header.parameters) : p ≠ [] ∧ ',' ∉ p ∧ '\t' ∉ p ∧ trim p = p := by
  rcases exists_of_parse? h with hnone | ⟨text, hsplit, htext⟩
  · rw [hnone] at hp
    exact absurd hp List.not_mem_nil
  · rw [hsplit] at hp
    obtain ⟨hne, hcomma, htrim⟩ := wellFormed_of_mem_splitParameters hp
    refine ⟨hne, hcomma, fun htab => ?_, htrim⟩
    exact tab_notMem_normalize line (htext _ (mem_of_mem_splitParameters hp htab).1)

/-! ### Reading against writing -/

/-- The legacy rule reads a header as it is written: its name does not end in the keyword, or
it declares no parameters. -/
def ReadBack (mode : Mode) (header : MacroHeader) : Prop :=
  mode = .legacy → ¬ EndsInKeyword header.name ∨ header.parameters = []

/-- A header is recognized and read back from each of its layouts, and no header at all is read
with a parameter that is empty, has a comma or a tab, or has white space at its ends. -/
theorem parse?_inverts_writes :
    (∀ mode header line, Writable header → Writes header line → ReadBack mode header →
      recognized line = true ∧ parse? mode (normalize line) = some header) ∧
    ∀ mode line header, parse? mode (normalize line) = some header →
      ∀ p ∈ header.parameters, p ≠ [] ∧ ',' ∉ p ∧ '\t' ∉ p ∧ trim p = p := by
  constructor
  · intro mode header line hheader hwrites hback
    have hparse := parse?_of_writes hheader hwrites hback
    exact ⟨recognized_of_parse? hparse, hparse⟩
  · intro mode line header h p hp
    exact wellFormed_of_parse? h hp

/-- The header `m` with the parameters `a b` and `c`. -/
def spacedHeader : MacroHeader := ⟨['m'], [['a', ' ', 'b'], ['c']]⟩

/-- One of its layouts, with tabs. -/
def spacedLine : Text :=
  [' ', 'm', '\t', ' ', 'M', 'a', 'c', 'R', 'o', '\t', 'a', ' ', 'b', '\t', ',', ' ', 'c', ' ']

theorem parse?_inverts_writes_spacedLine :
    (recognized spacedLine = true ∧
        parse? .legacy (normalize spacedLine) = some spacedHeader) ∧
      ∀ p ∈ spacedHeader.parameters, p ≠ [] ∧ ',' ∉ p ∧ '\t' ∉ p ∧ trim p = p := by
  have hheader : Writable spacedHeader := by
    refine ⟨by decide, ?_⟩
    intro p hp
    rcases List.mem_pair.mp hp with rfl | rfl
    · exact ⟨⟨by decide, by decide, by decide, by decide⟩, by decide⟩
    · exact ⟨⟨by decide, by decide, by decide, by decide⟩, by decide⟩
  have hwrites : Writes spacedHeader spacedLine := by
    have hfront : Blanks [' '] := by decide
    have hgap : Blanks ['\t', ' '] := by decide
    have hgap' : Blanks ['\t'] := by decide
    have hkeyword : IsKeyword ['M', 'a', 'c', 'R', 'o'] := rfl
    have hlists : Lists spacedHeader.parameters
        (['a', ' ', 'b'] ++ (['\t'] ++ ',' :: ([' '] ++ (['c'] ++ [' '])))) :=
      .cons hgap' hfront (.last hfront)
    exact .declaring hfront hgap (by simp) hkeyword hgap' (by simp) hlists
  have hboth := parse?_inverts_writes.1 .legacy spacedHeader spacedLine hheader hwrites
    fun _ => .inl (by decide)
  exact ⟨hboth, parse?_inverts_writes.2 .legacy spacedLine spacedHeader hboth.2⟩

end MacroHeader

end AsmCatalog
