/-
Calls with all their arguments in angle brackets.

What stands in brackets is passed as it is written, if the line is a call at all.  Its name is
no label and no comment, its second token begins with a bracket, which is in no keyword, and the
comma and the brackets are in no keyword either.  So only an argument can make an equate of the
line, and only by the legacy rule.

Main definitions:
* `bracketedList`, `bracketedCall` — arguments in brackets, and a call of a macro with them;
* `IsCallee`, `IsEnclosed`, `IsCall` — the names and the arguments that a line can have.

Main statements:
* `splitArguments_bracketedList` — the arguments are taken as they are written;
* `IsCall.equate_eq_none` — such a line is no equate;
* `IsCall.form_eq` — such a line is a call;
* `Catalog.passes_bracketed` — what an import makes of such a line.
-/
import AsmCatalog.Proofs.Comparison
import AsmCatalog.Proofs.KeywordLetters
import AsmCatalog.Proofs.LineCoverage
import AsmCatalog.Proofs.SpacedText
import AsmCatalog.Proofs.Utf8RoundTrip

namespace AsmCatalog

open Unicode (isWhiteSpace)
open Text

/-! ### Arguments in brackets -/

/-- An argument in angle brackets. -/
def bracketed (argument : Text) : Text := '<' :: (argument ++ ['>'])

/-- Arguments in angle brackets, with commas between them. -/
def bracketedList (arguments : List Text) : Text :=
  [','].intercalate (arguments.map bracketed)

variable {name argument word line : Text} {arguments : List Text} {c : Char}

theorem bracketedList_singleton (argument : Text) :
    bracketedList [argument] = '<' :: (argument ++ ['>']) :=
  List.intercalate_singleton

theorem bracketedList_cons (argument : Text) (hne : arguments ≠ []) :
    bracketedList (argument :: arguments) =
      '<' :: (argument ++ '>' :: ',' :: bracketedList arguments) := by
  obtain ⟨next, more, rfl⟩ := List.exists_cons_of_ne_nil hne
  rw [bracketedList, List.map_cons, List.map_cons, List.intercalate_cons_cons, bracketedList]
  simp [bracketed]

/-- A bracket opens first. -/
theorem exists_bracketedList_eq_cons (hne : arguments ≠ []) :
    ∃ rest, bracketedList arguments = '<' :: rest := by
  induction arguments, hne using List.recNeNil with
  | singleton a => exact ⟨_, bracketedList_singleton a⟩
  | cons a arguments hne => exact ⟨_, bracketedList_cons a hne⟩

/-- A bracket closes last. -/
theorem exists_bracketedList_eq_append (hne : arguments ≠ []) :
    ∃ front, bracketedList arguments = front ++ ['>'] := by
  induction arguments, hne using List.recNeNil with
  | singleton a => exact ⟨'<' :: a, bracketedList_singleton a⟩
  | cons a arguments hne ih =>
    obtain ⟨front, hfront⟩ := ih
    refine ⟨'<' :: (a ++ '>' :: ',' :: front), ?_⟩
    rw [bracketedList_cons a hne, hfront]
    simp

theorem mem_of_mem_bracketedList (hne : arguments ≠ []) (h : c ∈ bracketedList arguments) :
    c ∈ ['<', '>', ','] ∨ ∃ a ∈ arguments, c ∈ a := by
  induction arguments, hne using List.recNeNil with
  | singleton a =>
    rw [bracketedList_singleton] at h
    simp only [List.mem_cons, List.mem_append, List.not_mem_nil, or_false] at h ⊢
    rcases h with rfl | hmem | rfl
    · simp
    · exact .inr ⟨a, rfl, hmem⟩
    · simp
  | cons a arguments hne ih =>
    rw [bracketedList_cons a hne] at h
    simp only [List.mem_cons, List.mem_append] at h
    rcases h with rfl | hmem | rfl | rfl | hrest
    · simp
    · exact .inr ⟨a, List.mem_cons_self, hmem⟩
    · simp
    · simp
    · rcases ih hrest with hmark | ⟨b, hb, hmem⟩
      · exact .inl hmark
      · exact .inr ⟨b, List.mem_cons_of_mem _ hb, hmem⟩

/-! ### Reading the arguments -/

/-- Text in brackets is taken as it is. -/
theorem splitArgumentsFrom_inside (h : '>' ∉ argument) (rest : Text) :
    splitArgumentsFrom true (argument ++ '>' :: rest) =
      (splitArgumentsFrom false rest).modifyHead (argument ++ ·) := by
  induction argument with
  | nil =>
    show splitArgumentsFrom false rest = (splitArgumentsFrom false rest).modifyHead id
    rw [List.modifyHead_id, id]
  | cons c argument ih =>
    obtain ⟨hc, hargument⟩ := not_or.mp (mt List.mem_cons.mpr h)
    rw [List.cons_append, splitArgumentsFrom, if_pos rfl, if_neg fun heq => hc heq.symm,
      ih hargument, List.modifyHead_modifyHead]
    rfl

/-- Arguments in brackets are taken as they are written. -/
theorem splitArguments_bracketedList (hne : arguments ≠ []) (h : ∀ a ∈ arguments, '>' ∉ a) :
    splitArguments (bracketedList arguments) = arguments := by
  have hopens : ∀ rest, splitArguments ('<' :: rest) = splitArgumentsFrom true rest := fun _ => rfl
  have hnext : ∀ rest, splitArgumentsFrom false (',' :: rest) = [] :: splitArguments rest :=
    fun _ => rfl
  induction arguments, hne using List.recNeNil with
  | singleton a =>
    rw [bracketedList_singleton, hopens, splitArgumentsFrom_inside (h a List.mem_cons_self)]
    show [a ++ []] = [a]
    rw [List.append_nil]
  | cons a arguments hne ih =>
    have hrest : ∀ b ∈ arguments, '>' ∉ b := fun b hb => h b (List.mem_cons_of_mem _ hb)
    rw [bracketedList_cons a hne, hopens, splitArgumentsFrom_inside (h a List.mem_cons_self),
      hnext, ih hrest]
    show (a ++ []) :: arguments = a :: arguments
    rw [List.append_nil]

/-! ### Keywords in the arguments -/

theorem infix_of_infix_cons (hne : word ≠ []) (hc : c ∉ word) {rest : Text}
    (h : word <:+: c :: rest) : word <:+: rest := by
  rcases List.infix_cons_iff.mp h with hstart | hlater
  · rcases List.prefix_cons_iff.mp hstart with hnil | ⟨more, rfl, -⟩
    · exact absurd hnil hne
    · exact absurd List.mem_cons_self hc
  · exact hlater

/-- A word does not go on over a character that it does not have. -/
theorem infix_of_infix_append_cons (hne : word ≠ []) (hc : c ∉ word) {front rest : Text}
    (h : word <:+: front ++ c :: rest) : word <:+: front ∨ word <:+: rest := by
  rcases List.infix_append_iff.mp h with hfront | hrest | ⟨before, behind, rfl, hend, hstart⟩
  · exact .inl hfront
  · exact .inr (infix_of_infix_cons hne hc hrest)
  · rcases List.prefix_cons_iff.mp hstart with rfl | ⟨more, rfl, -⟩
    · rw [List.append_nil]
      exact .inl hend.isInfix
    · exact absurd (List.mem_append_right before List.mem_cons_self) hc

/-- A keyword in some arguments in brackets is in one of them. -/
theorem exists_infix_of_bracketedList (hword : word ≠ [])
    (hmarks : ∀ c ∈ ['<', '>', ','], c ∉ word) (hne : arguments ≠ [])
    (h : word <:+: lowerLetters (bracketedList arguments)) :
    ∃ a ∈ arguments, word <:+: lowerLetters a := by
  have hcons : ∀ c text, lowerLetters (c :: text) = c.toLower :: lowerLetters text :=
    fun _ _ => rfl
  have hopen : Char.toLower '<' ∉ word := hmarks '<' (by simp)
  have hclose : Char.toLower '>' ∉ word := hmarks '>' (by simp)
  have hcomma : Char.toLower ',' ∉ word := hmarks ',' (by simp)
  induction arguments, hne using List.recNeNil with
  | singleton a =>
    rw [bracketedList_singleton, hcons, lowerLetters_append, hcons] at h
    -- The brackets are not in the keyword, so it stands between them.
    have hinside := infix_of_infix_append_cons hword hclose (infix_of_infix_cons hword hopen h)
    rcases hinside with ha | hnil
    · exact ⟨a, List.mem_cons_self, ha⟩
    · exact absurd (List.infix_nil.mp hnil) hword
  | cons a arguments hne ih =>
    rw [bracketedList_cons a hne, hcons, lowerLetters_append, hcons, hcons] at h
    have hinside := infix_of_infix_append_cons hword hclose (infix_of_infix_cons hword hopen h)
    rcases hinside with ha | hrest
    · exact ⟨a, List.mem_cons_self, ha⟩
    · obtain ⟨b, hb, hinfix⟩ := ih (infix_of_infix_cons hword hcomma hrest)
      exact ⟨b, List.mem_cons_of_mem _ hb, hinfix⟩

/-! ### Lines with such a call -/

/-- The line that calls a macro by its name, with its arguments in brackets. -/
def bracketedCall (name : Text) (arguments : List Text) : Text :=
  name ++ ' ' :: bracketedList arguments

/-- A word that the code of a line can begin with: it has no comment, no label and no byte
order mark. -/
structure IsCallee (name : Text) : Prop extends IsWord name where
  semicolon_notMem : ';' ∉ name
  dot_ne : name.head? ≠ some '.'
  mark_ne : name.head? ≠ some '\uFEFF'

/-- A text that brackets can enclose. -/
structure IsEnclosed (argument : Text) : Prop where
  bracket_notMem : '>' ∉ argument
  semicolon_notMem : ';' ∉ argument
  tab_notMem : '\t' ∉ argument

/-- A name and arguments that a line can call it with. -/
structure IsCall (name : Text) (arguments : List Text) : Prop where
  callee : IsCallee name
  ne_nil : arguments ≠ []
  enclosed : ∀ a ∈ arguments, IsEnclosed a

namespace IsCall

theorem notMem (h : IsCall name arguments) (hname : c ∉ name)
    (hmarks : c ∉ [' ', '<', '>', ',']) (henclosed : ∀ a ∈ arguments, c ∉ a) :
    c ∉ bracketedCall name arguments := by
  obtain ⟨hspace, hlist⟩ := not_or.mp (mt List.mem_cons.mpr hmarks)
  rw [bracketedCall, List.mem_append, List.mem_cons]
  rintro (hmem | heq | hmem)
  · exact hname hmem
  · exact hspace heq
  · rcases mem_of_mem_bracketedList h.ne_nil hmem with hmark | ⟨a, ha, hmem⟩
    · exact hlist hmark
    · exact henclosed a ha hmem

theorem tab_notMem (h : IsCall name arguments) : '\t' ∉ bracketedCall name arguments :=
  h.notMem h.callee.tab_notMem (by decide) fun a ha => (h.enclosed a ha).tab_notMem

theorem semicolon_notMem (h : IsCall name arguments) : ';' ∉ bracketedCall name arguments :=
  h.notMem h.callee.semicolon_notMem (by decide) fun a ha => (h.enclosed a ha).semicolon_notMem

theorem head?_eq (h : IsCall name arguments) :
    (bracketedCall name arguments).head? = name.head? :=
  List.head?_append_of_ne_nil _ h.callee.ne_nil

theorem beginsDark (h : IsCall name arguments) : BeginsDark (bracketedCall name arguments) :=
  h.callee.beginsDark.append h.callee.ne_nil _

theorem trim_eq (h : IsCall name arguments) :
    trim (bracketedCall name arguments) = bracketedCall name arguments := by
  obtain ⟨front, hfront⟩ := exists_bracketedList_eq_append h.ne_nil
  have hend : trimEnd ['>'] = ['>'] := rfl
  have hline : bracketedCall name arguments = (name ++ ' ' :: front) ++ ['>'] := by
    rw [bracketedCall, hfront]
    simp
  rw [trim, trimStart_of_beginsDark h.beginsDark, hline,
    trimEnd_append_of_ne_nil (by rw [hend]; simp), hend]

theorem fromSecondWord_eq (h : IsCall name arguments) :
    fromSecondWord (bracketedCall name arguments) = bracketedList arguments := by
  obtain ⟨rest, hrest⟩ := exists_bracketedList_eq_cons h.ne_nil
  rw [bracketedCall, fromSecondWord_append h.callee.space_notMem, fromSecondWord_space, hrest]
  rfl

/-- The second token of the line begins with a bracket, and is a part of the arguments. -/
theorem exists_tokens (h : IsCall name arguments) : ∃ token behind,
    tokens (normalize (bracketedCall name arguments)) = name :: token :: behind ∧
      '<' ∈ token ∧ token <+: bracketedList arguments := by
  obtain ⟨rest, hrest⟩ := exists_bracketedList_eq_cons h.ne_nil
  obtain ⟨behind, hbehind⟩ := Text.exists_tokens (collapseSpaces (bracketedList arguments))
  rw [headWord_collapseSpaces] at hbehind
  refine ⟨headWord (bracketedList arguments), behind, ?_, ?_, List.takeWhile_prefix _⟩
  · have hspaces : (bracketedList arguments).dropWhile (· = ' ') = bracketedList arguments := by
      rw [hrest]
      rfl
    rw [Text.normalize, expandTabs_of_notMem h.tab_notMem, h.trim_eq, bracketedCall,
      collapseSpaces_append h.callee.space_notMem, collapseSpaces_space, hspaces, tokens,
      List.splitOn_append_cons_self_of_not_mem h.callee.space_notMem, ← tokens, hbehind]
  · rw [hrest]
    exact List.mem_cons_self

/-- The line is no equate, unless an argument makes it one by the legacy rule. -/
theorem equate_eq_none (h : IsCall name arguments) {mode : Mode}
    (hmode : mode = .legacy → ∀ a ∈ arguments, ¬ Equate.equateKeyword <:+: lowerLetters a) :
    Equate.parse? mode (bracketedCall name arguments) = none := by
  have hascii : AsciiOnly Equate.equateKeyword := by simp [AsciiOnly, Equate.equateKeyword]
  obtain ⟨token, behind, htokens, hbracket, htoken⟩ := h.exists_tokens
  have hkeyword : Equate.acceptsKeyword mode token = false := by
    rw [← Bool.not_eq_true]
    intro haccepts
    cases mode with
    | strict =>
      -- The strict keyword would have a bracket among its letters.
      have hletter := toLower_mem_of_spells hascii haccepts hbracket
      exact absurd hletter (by decide)
    | legacy =>
      have hinfix : Equate.equateKeyword <:+: lowerLetters token :=
        (mentions_iff (by simp [Equate.equateKeyword]) hascii rfl).mp haccepts
      have hlist : Equate.equateKeyword <:+: lowerLetters (bracketedList arguments) :=
        hinfix.trans (htoken.map Char.toLower).isInfix
      obtain ⟨a, ha, hmem⟩ := exists_infix_of_bracketedList (by simp [Equate.equateKeyword])
        (by simp [Equate.equateKeyword]) h.ne_nil hlist
      exact hmode rfl a ha hmem
  rw [Equate.parse?, htokens]
  cases behind with
  | nil => rfl
  | cons value more => exact if_neg (by rw [hkeyword]; simp)

/-- The line is all code. -/
theorem codeOf_eq (h : IsCall name arguments) :
    codeOf (bracketedCall name arguments) = bracketedCall name arguments := by
  have hcomment : withoutComment (bracketedCall name arguments) = bracketedCall name arguments := by
    refine List.takeWhile_eq_self_iff.mpr fun c hc => decide_eq_true ?_
    rintro rfl
    exact h.semicolon_notMem hc
  rw [codeOf, hcomment, dotLabel, trimStart_of_beginsDark h.beginsDark]
  split
  · rename_i rest hline
    have hdot := h.head?_eq
    rw [hline] at hdot
    exact absurd hdot.symm h.callee.dot_ne
  · rfl

theorem isBlank_eq_false (h : IsCall name arguments) :
    isBlank (bracketedCall name arguments) = false := by
  obtain ⟨c, more, rfl⟩ := List.exists_cons_of_ne_nil h.callee.ne_nil
  have hc : isWhiteSpace c = false := h.callee.beginsDark c rfl
  rw [isBlank, bracketedCall, List.cons_append, List.all_cons, hc, Bool.false_and]

/-- The line calls what its name stands for, with the arguments as they are written. -/
theorem form_eq (h : IsCall name arguments) {mode : Mode}
    (hmode : mode = .legacy → ∀ a ∈ arguments, ¬ Equate.equateKeyword <:+: lowerLetters a)
    (candidates : List (Macro Chunk)) :
    Form.parse? mode candidates (codeOf (bracketedCall name arguments)) =
      (resolveMacro? mode candidates name).map fun m =>
        .invoke ⟨m, nameArguments m.parameters arguments⟩ := by
  -- The name is what stands before the first space, and its arguments are behind that.
  have hname : ∀ c ∈ name, decide (c ≠ ' ') = true := by
    intro c hc
    refine decide_eq_true ?_
    rintro rfl
    exact h.callee.space_notMem hc
  have hcallee : (bracketedCall name arguments).takeWhile (· ≠ ' ') = name := by
    rw [bracketedCall, List.takeWhile_append_of_pos hname, List.takeWhile_cons_of_neg (by simp),
      List.append_nil]
  have hbehind : (bracketedCall name arguments).dropWhile (· ≠ ' ') =
      ' ' :: bracketedList arguments := by
    rw [bracketedCall, List.dropWhile_append_of_pos hname, List.dropWhile_cons_of_neg (by simp)]
  have hcall : ∀ m : Macro Chunk, Invocation.of m (bracketedCall name arguments) =
      ⟨m, nameArguments m.parameters arguments⟩ := by
    intro m
    have harguments := splitArguments_bracketedList h.ne_nil fun a ha =>
      (h.enclosed a ha).bracket_notMem
    rw [Invocation.of, h.trim_eq, hbehind]
    show Invocation.mk m (nameArguments m.parameters (splitArguments (bracketedList arguments))) = _
    rw [harguments]
  rw [Form.parse?, h.codeOf_eq, h.isBlank_eq_false, if_neg Bool.false_ne_true,
    h.equate_eq_none hmode, Invocation.parse?_eq, h.trim_eq, hcallee, Option.map_map]
  exact Option.map_congr fun m _ => congrArg Form.invoke (hcall m)

/-- The line is no comment and no header. -/
theorem ofHeader_eq (h : IsCall name arguments) :
    ChunkKind.ofHeader (bracketedCall name arguments) = .statement := by
  have hcode : trimStart (expandTabs (bracketedCall name arguments)) =
      bracketedCall name arguments := by
    rw [expandTabs_of_notMem h.tab_notMem, trimStart_of_beginsDark h.beginsDark]
  have hhead : (trimStart (expandTabs (bracketedCall name arguments))).head? ≠ some ';' := by
    rw [hcode]
    exact fun hsemicolon => h.semicolon_notMem (List.mem_of_head? hsemicolon)
  rcases ChunkKind.ofHeader_cases hhead with ⟨-, hkeyword⟩ | ⟨hkind, -⟩
  · -- The second word would be the keyword, which has no bracket.
    rw [hcode, h.fromSecondWord_eq] at hkeyword
    obtain ⟨word, rest, hlist, hword, -⟩ := hkeyword
    obtain ⟨more, hmore⟩ := exists_bracketedList_eq_cons h.ne_nil
    cases word with
    | nil => exact absurd hword (by decide)
    | cons c word =>
      rw [hmore, List.cons_append] at hlist
      obtain ⟨rfl, -⟩ := List.cons.inj hlist
      have hletter := toLower_mem_of_spells asciiOnly_macroKeyword hword List.mem_cons_self
      exact absurd hletter (by decide)
  · exact hkind

/-- The text of the line is decoded from its bytes. -/
theorem lineText_eq (h : IsCall name arguments) {stored : Bytes} (position : Nat)
    (hstored : withoutTerminator stored = Utf8.encode (bracketedCall name arguments)) :
    lineText position stored = bracketedCall name arguments := by
  have hmark : (bracketedCall name arguments).head? ≠ some '\uFEFF' := by
    rw [h.head?_eq]
    exact h.callee.mark_ne
  rw [lineText_of_encode hmark hstored, expandTabs_of_notMem h.tab_notMem]

end IsCall

/-! ### Imports of such a line -/

namespace Catalog

variable {bytes : Bytes} {start : Nat} {l : PhysicalLine} {mode : Mode}

/-- A line with a call in brackets is catalogued as a statement, and if the name stands for a
macro among the candidates of the line, as the call of this macro with the arguments as they
are written.  They receive the names of its parameters in order, as far as there are any. -/
theorem passes_bracketed (h : IsCall name arguments)
    (hmode : mode = .legacy → ∀ a ∈ arguments, ¬ Equate.equateKeyword <:+: lowerLetters a)
    (path : SourcePath) (includes : List Catalog) (hl : l ∈ physicalLines bytes start)
    (hstored : withoutTerminator l.bytes = Utf8.encode (bracketedCall name arguments)) :
    ∃ file chunk s,
      (ofSource { mode, includes } path (.ofBytes bytes) start false).result = .ok file ∧
      file.allChunks.filter (·.line = l.number) = [chunk] ∧ chunk.position = l.position ∧
      chunk.content = .statement s ∧ s.text = bracketedCall name arguments ∧
      ∀ m, resolveMacro? mode (file.candidatesAt includes l.position) name = some m →
        s.form = some (.invoke ⟨m, arguments.mapIdx fun i a => ⟨a, m.parameters[i]?⟩⟩) := by
  have htext : l.text = bracketedCall name arguments := by
    rw [((laidOut_linesFrom bytes start 0).found_of_mem hl).2] at hstored ⊢
    exact h.lineText_eq l.position hstored
  have hblank : l.isBlank = false := by
    rw [PhysicalLine.isBlank, htext, h.isBlank_eq_false]
  have hkind : l.kind = .statement := by
    rw [PhysicalLine.kind, htext, h.ofHeader_eq]
  obtain ⟨file, hfile⟩ := exists_ok_ofBytes path mode includes bytes start
  obtain ⟨chunk, hchunk, hposition, hcontent⟩ := exists_parse hfile hl hkind hblank
  rw [htext] at hcontent
  refine ⟨file, chunk, _, hfile, hchunk, hposition, hcontent, rfl, fun m hm => ?_⟩
  show Form.parse? mode (file.candidatesAt includes l.position)
    (codeOf (bracketedCall name arguments)) = _
  rw [h.form_eq hmode, hm]
  rfl

/-- The macro `m` with the parameter `x`, and a call of it with `a,b` and `c`. -/
def bracketedSource : Bytes :=
  Utf8.encode
    (['m', ' ', 'm', 'a', 'c', 'r', 'o', ' ', 'x', '\n', 'e', 'n', 'd', 'm', '\n'] ++
      (bracketedCall ['m'] [['a', ',', 'b'], ['c']] ++ ['\n']))

/-- The second argument has no parameter to receive it. -/
theorem passes_bracketed_bracketedSource :
    ∃ file chunk s m,
      (ofSource {} default (.ofBytes bracketedSource) 0 false).result = .ok file ∧
      file.allChunks.filter (·.line = 2) = [chunk] ∧ chunk.content = .statement s ∧
      m.name = ['m'] ∧
      s.form = some (.invoke ⟨m, [⟨['a', ',', 'b'], some ['x']⟩, ⟨['c'], none⟩]⟩) := by
  have hcall : IsCall ['m'] [['a', ',', 'b'], ['c']] := by
    refine ⟨⟨by decide, by decide, by decide, by decide⟩, by simp, ?_⟩
    intro a ha
    rcases List.mem_pair.mp ha with rfl | rfl
    · exact ⟨by decide, by decide, by decide⟩
    · exact ⟨by decide, by decide, by decide⟩
  have hlegacy : ∀ a ∈ [['a', ',', 'b'], ['c']], ¬ Equate.equateKeyword <:+: lowerLetters a := by
    decide
  have hl : ⟨15, 2, Utf8.encode (bracketedCall ['m'] [['a', ',', 'b'], ['c']] ++ ['\n']),
      bracketedCall ['m'] [['a', ',', 'b'], ['c']]⟩ ∈ physicalLines bracketedSource 0 := by
    decide +kernel
  obtain ⟨file, chunk, s, hfile, hchunk, -, hs, -, hform⟩ :=
    passes_bracketed hcall (fun _ => hlegacy) default [] hl (by decide +kernel)
  have hcandidates : (ofSource {} default (.ofBytes bracketedSource) 0 false).result.toOption.map
      (fun file => (resolveMacro? .legacy (file.candidatesAt [] 15) ['m']).map fun m =>
        (m.name, m.parameters)) = some (some (['m'], [['x']])) := by decide +kernel
  have hsame : (ofSource {} default (.ofBytes bracketedSource) 0 false).result = .ok file := hfile
  rw [hsame] at hcandidates
  obtain ⟨m, hm, hheader⟩ := Option.map_eq_some_iff.mp (Option.some.inj hcandidates)
  obtain ⟨hname, hparameters⟩ := Prod.mk.inj hheader
  refine ⟨file, chunk, s, m, hfile, hchunk, hs, hname, ?_⟩
  rw [hform m hm, hparameters]
  rfl

end Catalog

end AsmCatalog
