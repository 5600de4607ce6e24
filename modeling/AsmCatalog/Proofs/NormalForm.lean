/-
The normal form of a line, and what depends on nothing else.

Trimming takes any white space from the ends of a text, but only spaces and tabs are evened out
inside it.  What is left is in normal form by itself, and the functions that tell a line apart
read that alone: some after they have trimmed the line, one after it has put spaces for the
semicolons, and each with the same answer.

Main definitions:
* `Text.IsNormal` — a text in normal form, by its characters;
* `ReadAlike` — two texts that everything that recognizes lines takes for the same.

Main statements:
* `Text.IsNormal.normalize_eq` — such a text is its own normal form;
* `Text.IsNormal.ne_nil_of_mem_tokens` — no token of it is empty;
* `Text.normalize_map_normalize` — a line may be put in normal form before characters become
  spaces;
* `normalize_canonical` — the normal form of a line is canonical, and is read as the line is.
-/
import AsmCatalog.Proofs.SpacedText
import AsmCatalog.Comment
import AsmCatalog.Statement.Equate
import AsmCatalog.Statement.Label

namespace AsmCatalog

open Unicode (isWhiteSpace)

namespace Text

variable {text : Text} {c : Char}

/-! ### Ends of a text -/

/-- A text ends in no white space. -/
def EndsDark (text : Text) : Prop := ∀ c ∈ text.getLast?, isWhiteSpace c = false

theorem endsDark_trimEnd (text : Text) : EndsDark (trimEnd text) := by
  obtain ⟨_, -, -, hdark⟩ := exists_trimEnd text
  exact hdark

theorem trimEnd_of_endsDark (h : EndsDark text) : trimEnd text = text := by
  have hreverse : trimStart text.reverse = text.reverse :=
    trimStart_of_beginsDark fun c hc => h c (by rwa [← List.head?_reverse])
  rw [trimEnd, ← trimStart, hreverse, List.reverse_reverse]

theorem trim_of_white (h : ∀ c ∈ text, isWhiteSpace c = true) : trim text = [] := by
  have hnone : trim (text ++ [] ++ []) = trim [] := trim_append h (by simp)
  rwa [List.append_nil, List.append_nil] at hnone

/-- Trimming a text leaves its first character that is no white space. -/
theorem head?_trim (text : Text) : (trim text).head? = (trimStart text).head? := by
  have hnot := List.head?_dropWhile_not isWhiteSpace text
  rw [trim, trimStart]
  cases htext : text.dropWhile isWhiteSpace with
  | nil => rfl
  | cons c rest =>
    rw [htext] at hnot
    have hc : isWhiteSpace c = false := by simpa using hnot
    rw [trimEnd_cons hc]
    rfl

theorem trim_of_ends (hbegins : BeginsDark text) (hends : EndsDark text) : trim text = text := by
  rw [trim, trimStart_of_beginsDark hbegins, trimEnd_of_endsDark hends]

/-! ### Spaces in a text -/

theorem head?_collapseSpaces (text : Text) : (collapseSpaces text).head? = text.head? := by
  induction text with
  | nil => rfl
  | cons c rest ih =>
    rw [collapseSpaces_cons]
    split
    · rename_i hboth
      rw [ih, hboth.2, hboth.1]
      rfl
    · rfl

theorem getLast?_collapseSpaces (text : Text) :
    (collapseSpaces text).getLast? = text.getLast? := by
  induction text with
  | nil => rfl
  | cons c rest ih =>
    rw [collapseSpaces_cons]
    split
    · rename_i hboth
      obtain ⟨d, rest, rfl⟩ := List.exists_cons_of_ne_nil (l := rest) (by
        rintro rfl
        exact absurd hboth.2 (by simp))
      rw [ih, List.getLast?_cons_cons]
    · rw [List.getLast?_cons, List.getLast?_cons, ih]

/-- No two spaces stand side by side. -/
def SingleSpaced (text : Text) : Prop := ¬ [' ', ' '] <:+: text

theorem singleSpaced_cons : SingleSpaced (c :: text) ↔
    ¬ (c = ' ' ∧ text.head? = some ' ') ∧ SingleSpaced text := by
  have hprefix : [' ', ' '] <+: c :: text ↔ c = ' ' ∧ text.head? = some ' ' := by
    cases text <;> simp [eq_comm]
  rw [SingleSpaced, List.infix_cons_iff, hprefix, not_or, ← SingleSpaced]

theorem singleSpaced_collapseSpaces (text : Text) : SingleSpaced (collapseSpaces text) := by
  induction text with
  | nil => exact fun h => absurd (List.infix_nil.mp h) (by simp)
  | cons c rest ih =>
    rw [collapseSpaces_cons]
    split
    · exact ih
    · rename_i hnot
      exact singleSpaced_cons.mpr ⟨by rwa [head?_collapseSpaces], ih⟩

theorem collapseSpaces_of_singleSpaced (h : SingleSpaced text) : collapseSpaces text = text := by
  induction text with
  | nil => rfl
  | cons c rest ih =>
    obtain ⟨hnot, hrest⟩ := singleSpaced_cons.mp h
    rw [collapseSpaces_cons, if_neg hnot, ih hrest]

/-- It makes no difference whether white space is trimmed before spaces are collapsed. -/
theorem trim_collapseSpaces (text : Text) :
    trim (collapseSpaces text) = collapseSpaces (trim text) := by
  obtain ⟨front, back, htext, hfront, hback⟩ := exists_trim text
  have hwhite : ∀ {white : Text}, (∀ c ∈ white, isWhiteSpace c = true) →
      ∀ c ∈ collapseSpaces white, isWhiteSpace c = true :=
    fun h c hc => h c ((collapseSpaces_sublist _).mem hc)
  have hbegins : BeginsDark (trim text) := beginsDark_trim text
  have hends : EndsDark (trim text) := endsDark_trimEnd _
  generalize trim text = core at htext hbegins hends ⊢
  subst htext
  by_cases hcore : core = []
  · subst hcore
    have hblank : ∀ c ∈ front ++ [] ++ back, isWhiteSpace c = true := by
      intro c hc
      rw [List.append_nil] at hc
      exact (List.mem_append.mp hc).elim (hfront c) (hback c)
    exact trim_of_white (hwhite hblank)
  · -- The text that is left has no spaces at its edges, so no run of spaces goes over them.
    have hfirst : (core ++ back).head? ≠ some ' ' := by
      rw [List.head?_append_of_ne_nil _ hcore]
      exact fun hspace => (ne_of_dark (hbegins ' ' hspace)).1 rfl
    have hlast : core.getLast? ≠ some ' ' := fun hspace => (ne_of_dark (hends ' ' hspace)).1 rfl
    rw [List.append_assoc, collapseSpaces_append_of_edge fun _ => hfirst,
      collapseSpaces_append_of_edge fun hspace => absurd hspace hlast, ← List.append_assoc,
      trim_append (hwhite hfront) (hwhite hback)]
    exact trim_of_ends (by rwa [BeginsDark, head?_collapseSpaces])
      (by rwa [EndsDark, getLast?_collapseSpaces])

/-! ### Texts in normal form -/

/-- A text in normal form: it has no tabs, its spaces stand one by one, and it neither begins
nor ends in white space. -/
structure IsNormal (text : Text) : Prop where
  tab_notMem : '\t' ∉ text
  singleSpaced : SingleSpaced text
  beginsDark : BeginsDark text
  endsDark : EndsDark text

theorem isNormal_normalize (text : Text) : IsNormal (normalize text) where
  tab_notMem := tab_notMem_normalize text
  singleSpaced := singleSpaced_collapseSpaces _
  beginsDark := by
    rw [BeginsDark, normalize, head?_collapseSpaces]
    exact beginsDark_trim _
  endsDark := by
    rw [EndsDark, normalize, getLast?_collapseSpaces]
    exact endsDark_trimEnd _

/-- A text in normal form is its own one. -/
theorem IsNormal.normalize_eq (h : IsNormal text) : normalize text = text := by
  rw [normalize, expandTabs_of_notMem h.tab_notMem, trim_of_ends h.beginsDark h.endsDark,
    collapseSpaces_of_singleSpaced h.singleSpaced]

@[simp] theorem normalize_normalize (text : Text) : normalize (normalize text) = normalize text :=
  (isNormal_normalize text).normalize_eq

/-- Only a blank text has an empty normal form. -/
theorem normalize_eq_nil_iff : normalize text = [] ↔ isBlank text = true := by
  have htrim : normalize text = [] ↔ trim (expandTabs text) = [] := by
    rw [← List.head?_eq_none_iff, normalize, head?_collapseSpaces, List.head?_eq_none_iff]
  rw [htrim, ← isBlank_expandTabs, isBlank, List.all_eq_true]
  constructor
  · intro hnone c hc
    obtain ⟨front, back, htext, hfront, hback⟩ := exists_trim (expandTabs text)
    rw [hnone, List.append_nil] at htext
    rw [htext] at hc
    exact (List.mem_append.mp hc).elim (hfront c) (hback c)
  · exact trim_of_white

/-! ### Tokens -/

/-- An empty token stands at the start of a text, at its end, or between two spaces. -/
theorem of_nil_mem_tail_tokens (h : [] ∈ (tokens text).tail) :
    text.getLast? = some ' ' ∨ [' ', ' '] <:+: text := by
  induction text with
  | nil => exact absurd h (by simp [tokens])
  | cons c rest ih =>
    -- What is found in the rest of the text is found in the text.
    have hbehind : [] ∈ (tokens rest).tail →
        (c :: rest).getLast? = some ' ' ∨ [' ', ' '] <:+: c :: rest := by
      intro hrest
      refine (ih hrest).imp (fun hlast => ?_) fun hinside =>
        hinside.trans (List.suffix_cons ..).isInfix
      rw [List.getLast?_cons, hlast]
      rfl
    rw [tokens, List.splitOn_cons_eq_if_modifyHead, ← tokens] at h
    obtain ⟨behind, htokens⟩ := exists_tokens rest
    split at h
    · rename_i hc
      obtain rfl : c = ' ' := beq_iff_eq.mp hc
      rw [List.tail_cons, htokens] at h
      rcases List.mem_cons.mp h with hword | hrest
      · cases rest with
        | nil => exact .inl rfl
        | cons d rest =>
          -- The text goes on with another space.
          obtain rfl : d = ' ' := by
            by_contra hd
            rw [headWord, List.takeWhile_cons_of_pos (by simpa using hd)] at hword
            exact absurd hword (by simp)
          exact .inr (List.prefix_append [' ', ' '] rest).isInfix
      · exact hbehind (by rwa [htokens])
    · rw [htokens] at h
      exact hbehind (by rwa [htokens])

/-- No token of a text in normal form is empty, unless the text is. -/
theorem IsNormal.ne_nil_of_mem_tokens (h : IsNormal text) (hne : text ≠ []) {token : Text}
    (htoken : token ∈ tokens text) : token ≠ [] := by
  rintro rfl
  obtain ⟨behind, htokens⟩ := exists_tokens text
  rw [htokens] at htoken
  rcases List.mem_cons.mp htoken with hfirst | hlater
  · obtain ⟨c, rest, rfl⟩ := List.exists_cons_of_ne_nil hne
    have hc : c ≠ ' ' := (ne_of_dark (h.beginsDark c rfl)).1
    rw [headWord, List.takeWhile_cons_of_pos (by simpa using hc)] at hfirst
    exact absurd hfirst (by simp)
  · rcases of_nil_mem_tail_tokens (by rwa [htokens]) with hlast | hinside
    · exact (ne_of_dark (h.endsDark ' ' hlast)).1 rfl
    · exact h.singleSpaced hinside

/-! ### Characters that become spaces -/

section Spacing

variable {f : Char → Char}

/-- Spaces may be collapsed before characters become spaces. -/
theorem collapseSpaces_map_collapseSpaces (hspace : f ' ' = ' ') (text : Text) :
    collapseSpaces ((collapseSpaces text).map f) = collapseSpaces (text.map f) := by
  induction text with
  | nil => rfl
  | cons c rest ih =>
    rw [collapseSpaces_cons c rest]
    split
    · rename_i hboth
      have hhead : (rest.map f).head? = some ' ' := by
        rw [List.head?_map, hboth.2, Option.map_some, hspace]
      rw [ih, List.map_cons, collapseSpaces_cons, hboth.1, if_pos ⟨hspace, hhead⟩]
    · rw [List.map_cons, List.map_cons, collapseSpaces_cons, collapseSpaces_cons,
        List.head?_map, head?_collapseSpaces, List.head?_map, ih]

variable (hf : ∀ c, f c = c ∨ f c = ' ')
include hf

/-- White space may be trimmed before characters become spaces. -/
theorem trim_map_trim (text : Text) : trim ((trim text).map f) = trim (text.map f) := by
  obtain ⟨front, back, htext, hfront, hback⟩ := exists_trim text
  have hwhite : ∀ {white : Text}, (∀ c ∈ white, isWhiteSpace c = true) →
      ∀ c ∈ white.map f, isWhiteSpace c = true := by
    intro white h c hc
    obtain ⟨d, hd, rfl⟩ := List.mem_map.mp hc
    rcases hf d with hsame | hspace
    · rw [hsame]
      exact h d hd
    · rw [hspace]
      decide
  conv_rhs => rw [htext, List.map_append, List.map_append]
  exact (trim_append (hwhite hfront) (hwhite hback)).symm

/-- It makes no difference whether tabs become spaces before other characters do. -/
theorem expandTabs_map (text : Text) : expandTabs (text.map f) = (expandTabs text).map f := by
  have hspace : f ' ' = ' ' := (hf ' ').elim id id
  rw [expandTabs, expandTabs, List.map_map, List.map_map]
  refine List.map_congr_left fun c _ => ?_
  show (if f c = '\t' then ' ' else f c) = f (if c = '\t' then ' ' else c)
  by_cases htab : c = '\t'
  · rw [if_pos htab, hspace, htab]
    rcases hf '\t' with hsame | hchanged
    · rw [if_pos hsame]
    · rw [hchanged]
      rfl
  · rw [if_neg htab]
    rcases hf c with hsame | hchanged
    · rw [hsame, if_neg htab]
    · rw [hchanged]
      rfl

/-- A line may be put in normal form before characters become spaces. -/
theorem normalize_map_normalize (text : Text) :
    normalize ((normalize text).map f) = normalize (text.map f) := by
  have hspace : f ' ' = ' ' := (hf ' ').elim id id
  -- Trimming and collapsing may change places, so that each is taken away next to its like.
  calc normalize ((normalize text).map f)
    _ = collapseSpaces (trim ((normalize text).map f)) := by
      rw [normalize, expandTabs_map hf, expandTabs_of_notMem (tab_notMem_normalize text)]
    _ = trim (collapseSpaces ((collapseSpaces (trim (expandTabs text))).map f)) := by
      rw [trim_collapseSpaces, normalize]
    _ = collapseSpaces (trim ((trim (expandTabs text)).map f)) := by
      rw [collapseSpaces_map_collapseSpaces hspace, trim_collapseSpaces]
    _ = normalize (text.map f) := by
      rw [trim_map_trim hf, ← expandTabs_map hf, normalize]

end Spacing

end Text

open Text

/-! ### What a line is read as -/

/-- Two texts are the same for everything that tells what a line is. -/
structure ReadAlike (a b : Text) : Prop where
  kind : ChunkKind.classify (some a) = ChunkKind.classify (some b)
  header : MacroHeader.recognized a = MacroHeader.recognized b
  equate (mode : Mode) : Equate.parse? mode a = Equate.parse? mode b
  label : colonLabel? a = colonLabel? b
  comment : commentText a = commentText b

/-- The kind of a chunk is told by the normal form of its first line. -/
theorem ChunkKind.ofHeader_eq (line : Text) :
    ofHeader line =
      if (normalize line).head? = some ';' then .comment
      else if MacroHeader.recognized line then .macroDef else .statement := by
  have hrecognized :
      MacroHeader.recognized (trimStart (expandTabs line)) = MacroHeader.recognized line := by
    rw [MacroHeader.recognized, MacroHeader.recognized, normalize_trimStart_expandTabs]
  rw [ofHeader, Text.normalize, head?_collapseSpaces, head?_trim]
  split
  · rename_i rest hline
    rw [hline]
    exact (if_pos rfl).symm
  · rename_i hother
    have hhead : (trimStart (expandTabs line)).head? ≠ some ';' := by
      intro hhead
      obtain ⟨rest, hline⟩ := List.head?_eq_some_iff.mp hhead
      exact hother rest hline
    rw [hrecognized, if_neg hhead]

/-- The semicolons of a comment become spaces before or after it is put in normal form. -/
theorem commentText_eq (line : Text) :
    commentText line = normalize ((normalize line).map fun c => if c = ';' then ' ' else c) := by
  rw [commentText, normalize_map_normalize]
  intro c
  by_cases hc : c = ';'
  · exact .inr (if_pos hc)
  · exact .inl (if_neg hc)

theorem readAlike_of_normalize_eq {a b : Text} (h : normalize a = normalize b) :
    ReadAlike a b := by
  have hheader : MacroHeader.recognized a = MacroHeader.recognized b := by
    rw [MacroHeader.recognized, MacroHeader.recognized, h]
  refine ⟨?_, hheader, fun mode => ?_, ?_, ?_⟩
  · rw [ChunkKind.classify, ChunkKind.classify, ChunkKind.ofHeader_eq a, ChunkKind.ofHeader_eq b, h,
      hheader]
  · rw [Equate.parse?, Equate.parse?, h]
  · rw [colonLabel?, colonLabel?, h]
  · rw [commentText_eq a, commentText_eq b, h]

/-- The normal form of a line is canonical: it is in normal form by its characters and its own
normal form, its tokens are not empty unless the line is blank, and put together with spaces they
are the normal form again.  The line is read as this form is. -/
theorem normalize_canonical (line : Text) :
    IsNormal (normalize line) ∧ normalize (normalize line) = normalize line ∧
      ((∀ token ∈ tokens (normalize line), token ≠ []) ↔ isBlank line = false) ∧
      [' '].intercalate (tokens (normalize line)) = normalize line ∧
      ReadAlike line (normalize line) := by
  have hnormal := isNormal_normalize line
  refine ⟨hnormal, normalize_normalize line, ⟨fun htokens => ?_, fun hblank token htoken => ?_⟩,
    List.intercalate_splitOn ' ', readAlike_of_normalize_eq (normalize_normalize line).symm⟩
  · rw [← Bool.not_eq_true, ← normalize_eq_nil_iff]
    intro hnil
    rw [hnil] at htokens
    exact htokens [] List.mem_cons_self rfl
  · refine hnormal.ne_nil_of_mem_tokens ?_ htoken
    rw [Ne, normalize_eq_nil_iff, hblank]
    exact Bool.false_ne_true

end AsmCatalog
