/-
Texts and the spacing in them.

Trimming takes white space from both ends of a text, the normal form evens out the spaces and
tabs between its tokens, and neither changes anything else.

Main definitions:
* `Text.BeginsDark` — a text begins with no white space;
* `Text.withoutBlanks` — a text without its spaces and tabs;
* `Text.Blanks` — a text of spaces and tabs;
* `Text.normalRest` — what the normal form of a text has behind a character;
* `Text.IsWord` — a text that is a token by itself, with no white space at its ends.

Main statements:
* `Text.trim_append` — white space around a text is trimmed away;
* `Text.trim_flatten_tokens` — the tokens of a line, put together, are the line without its
  blanks;
* `Text.normalRest_append` — what is left of blanks before a token;
* `Text.tokens_normalize_cons` — a character in front of a text goes to its first token, or
  is a token by itself;
* `Text.IsWord.normalize_eq` — a word is its own normal form.
-/
import AsmCatalog.Proofs.SecondWord

namespace AsmCatalog

open Unicode (isWhiteSpace)

namespace Text

variable {text front back : Text} {c : Char}

/-! ### White space at the ends of a text -/

theorem trimStart_append (h : ∀ c ∈ front, isWhiteSpace c = true) :
    trimStart (front ++ text) = trimStart text :=
  List.dropWhile_append_of_pos h

theorem trimEnd_append (h : ∀ c ∈ back, isWhiteSpace c = true) :
    trimEnd (text ++ back) = trimEnd text := by
  have hreverse : ∀ c ∈ back.reverse, isWhiteSpace c = true := by simpa using h
  rw [trimEnd, List.reverse_append, List.dropWhile_append_of_pos hreverse, ← trimEnd]

theorem trimStart_append_of_ne_nil (h : trimStart front ≠ []) :
    trimStart (front ++ back) = trimStart front ++ back := by
  rw [trimStart] at h
  rw [trimStart, List.dropWhile_append, if_neg (by simpa using h), ← trimStart]

theorem trimEnd_append_of_ne_nil (h : trimEnd back ≠ []) :
    trimEnd (front ++ back) = front ++ trimEnd back := by
  have hne : back.reverse.dropWhile isWhiteSpace ≠ [] := fun hnil => h (by rw [trimEnd, hnil]; rfl)
  rw [trimEnd, List.reverse_append, List.dropWhile_append, if_neg (by simpa using hne),
    List.reverse_append, List.reverse_reverse, ← trimEnd]

theorem trim_append (hfront : ∀ c ∈ front, isWhiteSpace c = true)
    (hback : ∀ c ∈ back, isWhiteSpace c = true) : trim (front ++ text ++ back) = trim text := by
  rw [List.append_assoc, trim, trimStart_append hfront, trim, trimStart, List.dropWhile_append]
  split
  · rename_i hwhite
    have hnone : text.dropWhile isWhiteSpace = [] := List.isEmpty_iff.mp hwhite
    have hboth : back.dropWhile isWhiteSpace = [] := List.dropWhile_eq_nil_iff.mpr hback
    rw [trimStart, hnone, hboth]
  · rw [trimEnd_append hback, ← trimStart]

/-- A text is what trimming leaves of it, between white space. -/
theorem exists_trim (text : Text) : ∃ front back, text = front ++ trim text ++ back ∧
    (∀ c ∈ front, isWhiteSpace c = true) ∧ ∀ c ∈ back, isWhiteSpace c = true := by
  obtain ⟨back, hback, hwhite, -⟩ := exists_trimEnd (trimStart text)
  refine ⟨text.takeWhile isWhiteSpace, back, ?_, fun c hc => List.mem_takeWhile_imp hc, hwhite⟩
  rw [List.append_assoc, trim, ← hback, trimStart, List.takeWhile_append_dropWhile]

theorem trim_trim (text : Text) : trim (trim text) = trim text := by
  obtain ⟨front, back, htext, hfront, hback⟩ := exists_trim text
  rw [← trim_append hfront hback, ← htext]

/-- Characters may be left out before a text is trimmed. -/
theorem trim_filter (keep : Char → Bool) (text : Text) :
    trim ((trim text).filter keep) = trim (text.filter keep) := by
  obtain ⟨front, back, htext, hfront, hback⟩ := exists_trim text
  conv_rhs => rw [htext, List.filter_append, List.filter_append]
  exact (trim_append (fun c hc => hfront c (List.mem_of_mem_filter hc))
    fun c hc => hback c (List.mem_of_mem_filter hc)).symm

theorem ne_of_dark (hc : isWhiteSpace c = false) : c ≠ ' ' ∧ c ≠ '\t' := by
  constructor <;> rintro rfl <;> exact absurd hc (by decide)

/-- A text begins with no white space. -/
def BeginsDark (text : Text) : Prop := ∀ c ∈ text.head?, isWhiteSpace c = false

instance (text : Text) : Decidable (BeginsDark text) := Option.decidableForallMem text.head?

@[simp] theorem beginsDark_nil : BeginsDark [] := fun _ h => absurd h (by simp)

theorem beginsDark_cons (hc : isWhiteSpace c = false) (text : Text) : BeginsDark (c :: text) := by
  rintro d hd
  rwa [← Option.some.inj hd]

theorem BeginsDark.append (h : BeginsDark text) (hne : text ≠ []) (back : Text) :
    BeginsDark (text ++ back) := by
  intro c hc
  rw [List.head?_append_of_ne_nil _ hne] at hc
  exact h c hc

theorem trimStart_of_beginsDark (h : BeginsDark text) : trimStart text = text := by
  cases text with
  | nil => rfl
  | cons c rest => exact List.dropWhile_cons_of_neg (by simp [h c rfl])

theorem trimEnd_cons (hc : isWhiteSpace c = false) (text : Text) :
    trimEnd (c :: text) = c :: trimEnd text := by
  have hone : [c].dropWhile isWhiteSpace = [c] := List.dropWhile_cons_of_neg (by simp [hc])
  rw [trimEnd, List.reverse_cons, List.dropWhile_append, hone, trimEnd]
  split
  · rename_i hnone
    rw [List.isEmpty_iff.mp hnone]
    rfl
  · rw [List.reverse_append]
    rfl

theorem trim_cons (hc : isWhiteSpace c = false) (htext : BeginsDark text) :
    trim (c :: text) = c :: trim text := by
  rw [trim, trimStart_of_beginsDark (beginsDark_cons hc text), trimEnd_cons hc, trim,
    trimStart_of_beginsDark htext]

theorem beginsDark_trim (text : Text) : BeginsDark (trim text) := by
  rw [trim]
  cases htext : trimStart text with
  | nil => exact beginsDark_nil
  | cons c rest =>
    have hnot := List.head?_dropWhile_not isWhiteSpace text
    rw [← trimStart, htext] at hnot
    have hc : isWhiteSpace c = false := by simpa using hnot
    rw [trimEnd_cons hc]
    exact beginsDark_cons hc _

theorem trim_of_dark (h : ∀ c ∈ text, isWhiteSpace c = false) : trim text = text := by
  induction text with
  | nil => rfl
  | cons c rest ih =>
    have hrest : ∀ d ∈ rest, isWhiteSpace d = false := fun d hd => h d (List.mem_cons_of_mem _ hd)
    rw [trim_cons (h c List.mem_cons_self) fun d hd => hrest d (List.mem_of_head? hd), ih hrest]

/-! ### Spaces and tabs between tokens -/

/-- A text without its spaces and tabs. -/
def withoutBlanks (text : Text) : Text := text.filter fun c => c ≠ ' ' && c ≠ '\t'

theorem filter_expandTabs (text : Text) :
    (expandTabs text).filter (· ≠ ' ') = withoutBlanks text := by
  have hcons : ∀ c rest,
      expandTabs (c :: rest) = (if c = '\t' then ' ' else c) :: expandTabs rest := fun _ _ => rfl
  rw [withoutBlanks]
  induction text with
  | nil => rfl
  | cons c rest ih =>
    rw [hcons, List.filter_cons, List.filter_cons, ih]
    by_cases htab : c = '\t'
    · simp [htab]
    · simp [htab]

theorem collapseSpaces_cons (c : Char) (rest : Text) : collapseSpaces (c :: rest) =
    if c = ' ' ∧ rest.head? = some ' ' then collapseSpaces rest else c :: collapseSpaces rest :=
  rfl

/-- Runs of spaces are collapsed on both sides of a place that is inside none of them. -/
theorem collapseSpaces_append_of_edge
    (h : front.getLast? = some ' ' → back.head? ≠ some ' ') :
    collapseSpaces (front ++ back) = collapseSpaces front ++ collapseSpaces back := by
  induction front with
  | nil => rfl
  | cons c rest ih =>
    cases rest with
    | nil =>
      have hedge : ¬ (c = ' ' ∧ back.head? = some ' ') := by
        rintro ⟨rfl, hback⟩
        exact h rfl hback
      rw [List.singleton_append, collapseSpaces_cons, if_neg hedge]
      rw [collapseSpaces_cons, if_neg (by simp)]
      rfl
    | cons d rest =>
      have hrest := ih (by simpa using h)
      have hhead : (d :: rest ++ back).head? = (d :: rest).head? := rfl
      rw [List.cons_append, collapseSpaces_cons, hrest, collapseSpaces_cons c (d :: rest), hhead]
      split <;> rfl

theorem filter_collapseSpaces (text : Text) :
    (collapseSpaces text).filter (· ≠ ' ') = text.filter (· ≠ ' ') := by
  induction text with
  | nil => rfl
  | cons c rest ih =>
    rw [collapseSpaces]
    split
    · rename_i hboth
      rw [ih, List.filter_cons_of_neg (by simp [hboth.1])]
    · rw [List.filter_cons, List.filter_cons, ih]

theorem collapseSpaces_sublist (text : Text) : (collapseSpaces text).Sublist text := by
  induction text with
  | nil => exact .slnil
  | cons c rest ih =>
    rw [collapseSpaces_cons]
    split
    · exact ih.cons c
    · exact ih.cons_cons c

theorem mem_of_mem_trim (h : c ∈ trim text) : c ∈ text := by
  obtain ⟨front, back, htext, -⟩ := exists_trim text
  rw [htext]
  exact List.mem_append_left _ (List.mem_append_right _ h)

theorem mem_expandTabs_of_mem_normalize (h : c ∈ normalize text) : c ∈ expandTabs text :=
  mem_of_mem_trim ((collapseSpaces_sublist _).mem h)

/-- The normal form of a text has no characters besides its own ones and spaces. -/
theorem mem_of_mem_normalize (hc : c ≠ ' ') (h : c ∈ normalize text) : c ∈ text := by
  obtain ⟨d, hd, heq⟩ := List.mem_map.mp (mem_expandTabs_of_mem_normalize h)
  by_cases htab : d = '\t'
  · rw [if_pos htab] at heq
    exact absurd heq.symm hc
  · rw [if_neg htab] at heq
    exact heq ▸ hd

theorem tab_notMem_normalize (text : Text) : '\t' ∉ normalize text := fun h =>
  tab_notMem_expandTabs text (mem_expandTabs_of_mem_normalize h)

/-- The parts of a text between separators hold all its other characters. -/
theorem flatten_splitOn (sep : Char) (text : Text) :
    (text.splitOn sep).flatten = text.filter (· ≠ sep) := by
  induction text with
  | nil => rfl
  | cons c rest ih =>
    rw [List.splitOn_cons_eq_if_modifyHead]
    by_cases hc : c = sep
    · rw [if_pos (by simp [hc]), List.flatten_cons, List.nil_append, ih,
        List.filter_cons_of_neg (by simp [hc])]
    · rw [if_neg (by simp [hc]), List.filter_cons_of_pos (by simp [hc]), ← ih]
      obtain ⟨first, more, hsplit⟩ := List.exists_cons_of_ne_nil (List.splitOn_ne_nil sep rest)
      rw [hsplit]
      rfl

/-- The tokens of a line, put together, are the line without its blanks. -/
theorem trim_flatten_tokens (text : Text) :
    trim (tokens (normalize text)).flatten = trim (withoutBlanks text) := by
  rw [tokens, flatten_splitOn, normalize, filter_collapseSpaces, trim_filter, filter_expandTabs]

/-! ### A character in front of a text -/

theorem withoutBlanks_cons (hspace : c ≠ ' ') (htab : c ≠ '\t') (text : Text) :
    withoutBlanks (c :: text) = c :: withoutBlanks text :=
  List.filter_cons_of_pos (by simp [hspace, htab])

/-- A character other than a space goes to the first token. -/
theorem tokens_cons (hc : c ≠ ' ') (text : Text) : ∃ first more,
    tokens text = first :: more ∧ tokens (c :: text) = (c :: first) :: more := by
  obtain ⟨first, more, hsplit⟩ := List.exists_cons_of_ne_nil (List.splitOn_ne_nil ' ' text)
  refine ⟨first, more, hsplit, ?_⟩
  rw [tokens, List.splitOn_cons_eq_if_modifyHead, if_neg (by simpa using hc), hsplit]
  rfl

theorem expandTabs_cons (hc : isWhiteSpace c = false) (text : Text) :
    expandTabs (c :: text) = c :: expandTabs text := by
  rw [expandTabs, List.map_cons, if_neg (ne_of_dark hc).2, ← expandTabs]

/-- A text that begins with no white space begins as it does in normal form. -/
theorem normalize_cons_eq (hc : isWhiteSpace c = false) (text : Text) :
    normalize (c :: text) = c :: collapseSpaces (trimEnd (expandTabs text)) := by
  rw [normalize, expandTabs_cons hc, trim,
    trimStart_of_beginsDark (beginsDark_cons hc (expandTabs text)), trimEnd_cons hc,
    collapseSpaces_cons, if_neg fun hboth => (ne_of_dark hc).1 hboth.1]

theorem normalize_cons (hc : isWhiteSpace c = false) (htext : BeginsDark text) :
    normalize (c :: text) = c :: normalize text := by
  rw [normalize_cons_eq hc, normalize, trim]
  cases text with
  | nil => rfl
  | cons d rest =>
    have hhead : BeginsDark (d :: expandTabs rest) := htext
    rw [expandTabs_cons (htext d rfl), trimStart_of_beginsDark hhead]

/-- A text of spaces and tabs. -/
def Blanks (text : Text) : Prop := ∀ c ∈ text, c = ' ' ∨ c = '\t'

instance (text : Text) : Decidable (Blanks text) := List.decidableBAll _ text

theorem blanks_nil : Blanks [] := fun _ hc => absurd hc List.not_mem_nil

/-- A text is blanks and what comes behind them. -/
theorem exists_blanks (h : BeginsDark (withoutBlanks text)) :
    ∃ blanks rest, text = blanks ++ rest ∧ Blanks blanks ∧
      BeginsDark rest := by
  induction text with
  | nil => exact ⟨[], [], rfl, blanks_nil, beginsDark_nil⟩
  | cons c text ih =>
    by_cases hc : c = ' ' ∨ c = '\t'
    · have hwithout : withoutBlanks (c :: text) = withoutBlanks text :=
        List.filter_cons_of_neg (by rcases hc with rfl | rfl <;> simp)
      obtain ⟨blanks, rest, rfl, hblanks, hrest⟩ := ih (hwithout ▸ h)
      exact ⟨c :: blanks, rest, rfl, List.forall_mem_cons.mpr ⟨hc, hblanks⟩, hrest⟩
    · obtain ⟨hspace, htab⟩ := not_or.mp hc
      rw [withoutBlanks_cons hspace htab] at h
      exact ⟨[], c :: text, rfl, blanks_nil, h⟩

theorem expandTabs_of_blanks (hfront : Blanks front) :
    ∀ c ∈ expandTabs front, c = ' ' := by
  intro c hc
  obtain ⟨d, hd, rfl⟩ := List.mem_map.mp hc
  rcases hfront d hd with rfl | rfl <;> rfl

theorem isWhiteSpace_expandTabs_of_blanks (hfront : Blanks front) :
    ∀ c ∈ expandTabs front, isWhiteSpace c = true := by
  intro c hc
  rw [expandTabs_of_blanks hfront c hc]
  decide

theorem normalize_append_blanks (hfront : Blanks front) :
    normalize (front ++ back) = normalize back := by
  rw [normalize, expandTabs_append, trim,
    trimStart_append (isWhiteSpace_expandTabs_of_blanks hfront), ← trim, ← normalize]

/-- What the normal form of a text has behind a character that is no white space. -/
def normalRest (text : Text) : Text := collapseSpaces (trimEnd (expandTabs text))

theorem normalRest_of_blanks (hfront : Blanks front) :
    normalRest front = [] := by
  have hnone : trimEnd ([] ++ expandTabs front) = [] :=
    trimEnd_append (isWhiteSpace_expandTabs_of_blanks hfront)
  rw [List.nil_append] at hnone
  rw [normalRest, hnone]
  rfl

/-- What is left of some blanks before a token: one space, if there are any. -/
def spaceFor (blanks : Text) : Text := if blanks = [] then [] else [' ']

theorem isWhiteSpace_of_mem_spaceFor (hc : c ∈ spaceFor text) : isWhiteSpace c = true := by
  rw [spaceFor] at hc
  split at hc
  · exact absurd hc List.not_mem_nil
  · rw [List.mem_singleton.mp hc]
    decide

theorem normalRest_append (hfront : Blanks front) (hback : BeginsDark back)
    (hne : back ≠ []) : normalRest (front ++ back) = spaceFor front ++ normalize back := by
  have hdark : BeginsDark (expandTabs back) ∧ trimEnd (expandTabs back) ≠ [] := by
    obtain ⟨c, back, rfl⟩ := List.exists_cons_of_ne_nil hne
    have hc := hback c rfl
    rw [expandTabs_cons hc, trimEnd_cons hc]
    exact ⟨beginsDark_cons hc _, List.cons_ne_nil _ _⟩
  have htrim : trimEnd (expandTabs back) = trim (expandTabs back) := by
    rw [trim, trimStart_of_beginsDark hdark.1]
  rw [normalRest, expandTabs_append, trimEnd_append_of_ne_nil hdark.2, htrim, normalize]
  cases front with
  | nil => rfl
  | cons b front =>
    obtain ⟨hfirst, hspaces⟩ : (if b = '\t' then ' ' else b) = ' ' ∧
        ∀ d ∈ expandTabs front, d = ' ' := List.forall_mem_cons.mp (expandTabs_of_blanks hfront)
    have hexpand : expandTabs (b :: front) = ' ' :: expandTabs front := by
      rw [expandTabs, List.map_cons, hfirst, ← expandTabs]
    have hstart : (trim (expandTabs back)).dropWhile (· = ' ') = trim (expandTabs back) := by
      have hbegins := beginsDark_trim (expandTabs back)
      cases htext : trim (expandTabs back) with
      | nil => rfl
      | cons d rest =>
        rw [htext] at hbegins
        exact List.dropWhile_cons_of_neg (by simpa using (ne_of_dark (hbegins d rfl)).1)
    rw [hexpand, List.cons_append, collapseSpaces_space,
      List.dropWhile_append_of_pos fun d hd => decide_eq_true (hspaces d hd), hstart, spaceFor,
      if_neg (List.cons_ne_nil _ _)]
    rfl

/-- Only the first of some blanks behind a character stays, and that only before a token. -/
theorem normalize_cons_blanks (hc : isWhiteSpace c = false) (hne : front ≠ [])
    (hfront : Blanks front) (hback : BeginsDark back) :
    normalize (c :: (front ++ back)) = if back = [] then [c] else c :: ' ' :: normalize back := by
  rw [normalize_cons_eq hc, ← normalRest]
  split
  · rename_i hnil
    rw [hnil, List.append_nil, normalRest_of_blanks hfront]
  · rename_i hsome
    rw [normalRest_append hfront hback hsome, spaceFor, if_neg hne]
    rfl

/-- A character in front of a text goes to the first token of it, or is a token by itself if
the text begins with blanks. -/
theorem tokens_normalize_cons (hc : isWhiteSpace c = false)
    (h : BeginsDark (withoutBlanks text)) :
    ∃ first more, tokens (normalize text) = first :: more ∧
      (((∀ d ∈ first.head?, d ∈ text.head?) ∧
          tokens (normalize (c :: text)) = (c :: first) :: more) ∨
        tokens (normalize (c :: text)) = [c] :: first :: more) := by
  have hspace := (ne_of_dark hc).1
  obtain ⟨blanks, rest, rfl, hblanks, hrest⟩ := exists_blanks h
  obtain ⟨first, more, hfirst, hcons⟩ := tokens_cons hspace (normalize rest)
  refine ⟨first, more, by rw [normalize_append_blanks hblanks, hfirst], ?_⟩
  by_cases hne : blanks = []
  · subst hne
    rw [List.nil_append, normalize_cons hc hrest, hcons]
    refine .inl ⟨fun d hd => ?_, rfl⟩
    cases rest with
    | nil =>
      have hnil : tokens (normalize []) = [[]] := rfl
      obtain ⟨rfl, -⟩ := List.cons.inj (hnil.symm.trans hfirst)
      exact hd
    | cons e rest =>
      obtain ⟨behind, htokens⟩ := exists_tokens (normalize (e :: rest))
      obtain ⟨rfl, -⟩ := List.cons.inj (hfirst.symm.trans htokens)
      rw [normalize_cons_eq (hrest e rfl), headWord, List.head?_takeWhile] at hd
      exact (Option.filter_eq_some_iff.mp hd).1
  · rw [normalize_cons_blanks hc hne hblanks hrest]
    split
    · rename_i hnil
      subst hnil
      have hnil : tokens (normalize []) = [[]] := rfl
      obtain ⟨rfl, rfl⟩ := List.cons.inj (hnil.symm.trans hfirst)
      exact .inl ⟨fun d hd => absurd hd (by simp), hcons⟩
    · have hone : ' ' ∉ [c] := by simpa using hspace.symm
      refine .inr ?_
      rw [← hfirst, tokens, tokens, ← List.splitOn_append_cons_self_of_not_mem hone]
      rfl

/-! ### Words -/

/-- A text that is one token, with no white space at its ends. -/
structure IsWord (text : Text) : Prop where
  ne_nil : text ≠ []
  space_notMem : ' ' ∉ text
  tab_notMem : '\t' ∉ text
  trim_eq : trim text = text

instance (text : Text) : Decidable (IsWord text) :=
  decidable_of_iff (text ≠ [] ∧ ' ' ∉ text ∧ '\t' ∉ text ∧ trim text = text)
    ⟨fun ⟨h₁, h₂, h₃, h₄⟩ => ⟨h₁, h₂, h₃, h₄⟩, fun ⟨h₁, h₂, h₃, h₄⟩ => ⟨h₁, h₂, h₃, h₄⟩⟩

namespace IsWord

theorem normalize_eq (h : IsWord text) : normalize text = text := by
  rw [normalize, expandTabs_of_notMem h.tab_notMem, h.trim_eq,
    collapseSpaces_of_notMem h.space_notMem]

theorem tokens_eq (h : IsWord text) : tokens (normalize text) = [text] := by
  rw [h.normalize_eq, tokens, List.splitOn_eq_singleton h.space_notMem]

theorem beginsDark (h : IsWord text) : BeginsDark text := h.trim_eq ▸ beginsDark_trim text

theorem withoutBlanks_eq (h : IsWord text) : withoutBlanks text = text := by
  refine List.filter_eq_self.mpr fun c hc => ?_
  have hspace : c ≠ ' ' := fun heq => h.space_notMem (heq ▸ hc)
  have htab : c ≠ '\t' := fun heq => h.tab_notMem (heq ▸ hc)
  simp [hspace, htab]

end IsWord

end Text

namespace MacroHeader

open Text

variable {text : Text}

/-- A spelling of the keyword is a word. -/
theorem isWord_of_spells {keyword : Text} (h : spells keyword macroKeyword = true) :
    IsWord keyword where
  ne_nil := List.ne_nil_of_length_pos (by rw [(letters_of_spells h).1]; decide)
  space_notMem := space_notMem_of_spells h
  tab_notMem := fun htab => absurd ((letters_of_spells h).2 '\t' htab).1 (by decide)
  trim_eq := trim_of_dark fun c hc => ((letters_of_spells h).2 c hc).1

theorem beginsDark_of_beginsWithKeyword (h : BeginsWithKeyword text) : BeginsDark text := by
  obtain ⟨word, rest, rfl, hword, -⟩ := h
  have hisword := isWord_of_spells hword
  exact hisword.beginsDark.append hisword.ne_nil rest

end MacroHeader

end AsmCatalog
