/-
Comments behind the text of a line.

A semicolon begins a comment, which is cut off before a statement is read.  The kind of the
line is told before that, with the comment in its place: where no space keeps the two apart,
the comment goes on with a word of the line.  It can bring the keyword of a macro header into
the second place, or hide the keyword that stands there.

Main definition:
* `CommentGlued` — a comment changes the second word of a line in one of these ways.

Main statements:
* `MacroHeader.beginsWithKeyword_comment_iff` — which keyword a comment leaves alone;
* `ofHeader_comment_iff` — the kind of a line stays the same unless the comment is glued to
  it, and the label and the form of a statement stay the same in any case.
-/
import AsmCatalog.Proofs.SecondWord
import AsmCatalog.Statement.Parse

namespace AsmCatalog

open Text

variable {s c : Text}

/-- A comment that no space keeps apart from the words of a line: the line has one word, and
the comment with it has the keyword of a header as its second one; or the line is a header,
and the comment stands right behind its keyword, but for other white space. -/
def CommentGlued (s c : Text) : Prop :=
  (' ' ∉ trimStart (expandTabs s) ∧ MacroHeader.recognized (';' :: c) = true) ∨
    (ChunkKind.ofHeader s = .macroDef ∧
      ((fromSecondWord (trimStart (expandTabs s))).drop macroKeyword.length).head? ≠ some ' ')

instance (s c : Text) : Decidable (CommentGlued s c) := inferInstanceAs (Decidable (_ ∨ _))

theorem trimStart_expandTabs_ne_nil (hs : isBlank s = false) : trimStart (expandTabs s) ≠ [] := by
  rw [isBlank, List.all_eq_false] at hs
  obtain ⟨d, hd, hdark⟩ := hs
  rw [trimStart_expandTabs, expandTabs, Ne, List.map_eq_nil_iff, trimStart,
    List.dropWhile_eq_nil_iff]
  exact fun hnil => hdark (hnil d hd)

/-- The white space at the start of a line ends before the comment behind it. -/
theorem trimStart_expandTabs_comment (hs : isBlank s = false) (c : Text) :
    trimStart (expandTabs (s ++ ';' :: c)) =
      trimStart (expandTabs s) ++ ';' :: expandTabs c := by
  have hne := trimStart_expandTabs_ne_nil hs
  have hsemicolon : expandTabs (';' :: c) = ';' :: expandTabs c := rfl
  rw [trimStart] at hne
  rw [expandTabs_append, hsemicolon, trimStart, List.dropWhile_append,
    if_neg (by simpa using hne), ← trimStart]

theorem head?_trimStart_ne (h : ';' ∉ s) : (trimStart (expandTabs s)).head? ≠ some ';' := by
  intro hhead
  have hmem : ';' ∈ expandTabs s := (List.dropWhile_sublist _).mem (List.mem_of_head? hhead)
  obtain ⟨d, hd, hsemicolon⟩ := List.mem_map.mp hmem
  by_cases htab : d = '\t'
  · rw [if_pos htab] at hsemicolon
    exact absurd hsemicolon (by decide)
  · rw [if_neg htab] at hsemicolon
    exact h (hsemicolon ▸ hd)

/-- A comment leaves the keyword alone if there is a space between them. -/
theorem MacroHeader.beginsWithKeyword_comment_iff {text : Text} :
    BeginsWithKeyword (text ++ ';' :: c) ↔
      BeginsWithKeyword text ∧ (text.drop macroKeyword.length).head? = some ' ' := by
  constructor
  · rintro ⟨word, rest, htext, hword, hrest⟩
    obtain ⟨between, htext, hbetween⟩ := exists_between hword htext
      fun d hd => .inr (Option.some.inj hd).symm
    have hspace : between.head? = some ' ' := by
      rcases hrest with hspace | hblank
      · cases between with
        | nil =>
          rw [hbetween] at hspace
          exact absurd (Option.some.inj hspace) (by decide)
        | cons d between =>
          rw [hbetween] at hspace
          exact hspace
      · -- A semicolon is no white space.
        rw [hbetween, isBlank, List.all_eq_true] at hblank
        exact absurd (hblank ';' (by simp)) (by decide)
    refine ⟨⟨word, between, htext, hword, .inl hspace⟩, ?_⟩
    rw [htext, ← (letters_of_spells hword).1, List.drop_left]
    exact hspace
  · rintro ⟨⟨word, rest, rfl, hword, -⟩, hspace⟩
    rw [← (letters_of_spells hword).1, List.drop_left] at hspace
    obtain ⟨rest, rfl⟩ := List.head?_eq_some_iff.mp hspace
    exact ⟨word, _, List.append_assoc .., hword, .inl rfl⟩

section Kind

variable (hcode : ';' ∉ s) (hs : isBlank s = false)

include hcode hs

/-- A line with a comment is a comment no more than the line is. -/
theorem head?_trimStart_comment_ne (c : Text) :
    (trimStart (expandTabs (s ++ ';' :: c))).head? ≠ some ';' := by
  have hne := trimStart_expandTabs_ne_nil hs
  have hhead := head?_trimStart_ne hcode
  rw [trimStart_expandTabs_comment hs]
  cases htext : trimStart (expandTabs s) with
  | nil => exact absurd htext hne
  | cons d text =>
    rw [htext] at hhead
    exact hhead

/-- A line with a comment is a header if the comment, with the one word of the line before it,
has the keyword, or if the line is a header that the comment leaves alone. -/
theorem ofHeader_comment_eq_macroDef_iff (c : Text) :
    ChunkKind.ofHeader (s ++ ';' :: c) = .macroDef ↔
      (' ' ∉ trimStart (expandTabs s) ∧ MacroHeader.recognized (';' :: c) = true) ∨
        (ChunkKind.ofHeader s = .macroDef ∧
          ((fromSecondWord (trimStart (expandTabs s))).drop macroKeyword.length).head? =
            some ' ') := by
  rw [ChunkKind.ofHeader_eq_macroDef_iff (head?_trimStart_comment_ne hcode hs c),
    ChunkKind.ofHeader_eq_macroDef_iff (head?_trimStart_ne hcode),
    trimStart_expandTabs_comment hs]
  by_cases hspace : ' ' ∈ trimStart (expandTabs s)
  · rw [fromSecondWord_append_cons hspace (by decide),
      MacroHeader.beginsWithKeyword_comment_iff]
    simp [hspace]
  · -- The line has one word, and the second one is in the comment if anywhere.
    have hcomment : trimStart (expandTabs (';' :: c)) = ';' :: expandTabs c := rfl
    have hnone := mt MacroHeader.space_mem_of_beginsWithKeyword hspace
    rw [fromSecondWord_append hspace, MacroHeader.recognized_iff, hcomment]
    simp [hspace, hnone]

end Kind

/-- A comment behind a line leaves the kind of the line as it is exactly if it is not glued to
the line.  The label and the form of the statement never change. -/
theorem ofHeader_comment_iff (hcode : ';' ∉ s) (hs : isBlank s = false) (c : Text) :
    (ChunkKind.ofHeader (s ++ ';' :: c) = ChunkKind.ofHeader s ↔ ¬ CommentGlued s c) ∧
      ∀ (mode : Mode) (candidates : List (Macro Chunk)),
        (Statement.parse mode candidates (s ++ ';' :: c)).label =
            (Statement.parse mode candidates s).label ∧
          (Statement.parse mode candidates (s ++ ';' :: c)).form =
            (Statement.parse mode candidates s).form := by
  constructor
  · have hheader := ofHeader_comment_eq_macroDef_iff hcode hs c
    rw [ChunkKind.ofHeader_eq_iff (head?_trimStart_comment_ne hcode hs c)
      (head?_trimStart_ne hcode), hheader, CommentGlued]
    by_cases hbegins : ChunkKind.ofHeader s = .macroDef
    · have hkeyword := (ChunkKind.ofHeader_eq_macroDef_iff (head?_trimStart_ne hcode)).mp hbegins
      have hspace := MacroHeader.space_mem_of_beginsWithKeyword hkeyword
      simp [hbegins, hspace]
    · simp [hbegins]
  · intro mode candidates
    have hcut : withoutComment (s ++ ';' :: c) = withoutComment s := by
      have hbefore : ∀ d ∈ s, decide (d ≠ ';') = true := fun d hd =>
        decide_eq_true fun hsemicolon => hcode (hsemicolon ▸ hd)
      rw [withoutComment, List.takeWhile_append_of_pos hbefore,
        List.takeWhile_cons_of_neg (by simp), List.append_nil, withoutComment,
        List.takeWhile_eq_self_iff.mpr hbefore]
    rw [Statement.parse, Statement.parse, hcut]
    exact ⟨rfl, rfl⟩

/-- A header and a comment with the keyword, and a word and the same comment. -/
theorem ofHeader_comment_iff_header :
    ';' ∉ ['w', ' ', 'm', 'a', 'c', 'r', 'o', ' ', 'x'] ∧
      isBlank ['w', ' ', 'm', 'a', 'c', 'r', 'o', ' ', 'x'] = false ∧
      ¬ CommentGlued ['w', ' ', 'm', 'a', 'c', 'r', 'o', ' ', 'x']
        [' ', 'm', 'a', 'c', 'r', 'o'] ∧
      ChunkKind.ofHeader (['w', ' ', 'm', 'a', 'c', 'r', 'o', ' ', 'x'] ++
          ';' :: [' ', 'm', 'a', 'c', 'r', 'o']) =
        ChunkKind.ofHeader ['w', ' ', 'm', 'a', 'c', 'r', 'o', ' ', 'x'] ∧
      ChunkKind.ofHeader (['r', 't', 's'] ++ ';' :: [' ', 'm', 'a', 'c', 'r', 'o']) ≠
        ChunkKind.ofHeader ['r', 't', 's'] := by
  have hapart : ¬ CommentGlued ['w', ' ', 'm', 'a', 'c', 'r', 'o', ' ', 'x']
      [' ', 'm', 'a', 'c', 'r', 'o'] := by decide +kernel
  have hglued : CommentGlued ['r', 't', 's'] [' ', 'm', 'a', 'c', 'r', 'o'] := by decide +kernel
  refine ⟨by decide, by decide, hapart, ?_, fun hsame => ?_⟩
  · exact (ofHeader_comment_iff (by decide) (by decide) _).1.mpr hapart
  · exact (ofHeader_comment_iff (by decide) (by decide) _).1.mp hsame hglued

/-- A comment can make a header of a statement, and a statement of a header. -/
theorem ofHeader_comment_ne :
    (ChunkKind.ofHeader ['r', 't', 's'] = .statement ∧
        ChunkKind.ofHeader (['r', 't', 's'] ++ ';' :: [' ', 'm', 'a', 'c', 'r', 'o']) =
          .macroDef) ∧
      ChunkKind.ofHeader ['w', ' ', 'm', 'a', 'c', 'r', 'o'] = .macroDef ∧
        ChunkKind.ofHeader (['w', ' ', 'm', 'a', 'c', 'r', 'o'] ++ ';' :: ['x']) =
          .statement := by decide +kernel

end AsmCatalog
