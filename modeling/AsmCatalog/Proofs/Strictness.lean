/-
Strict mode against legacy mode.

Strict mode asks for more of an equate and for less of a call, and it looks for equates first.
So a line may lose its equate and become a call, but a call is never lost: what strict mode
takes for an equate legacy mode takes for one too.  The macros of the file may have other
parameters in the other mode, but they have the same names at the same places.

Main definitions:
* `Equate.hasKeyword`, `Chunk.hasEquateKeyword` — the second token is the keyword, and no
  longer word around it;
* `Chunk.Tightens` — what strict mode makes of a line, against what legacy mode makes of it;
* `Catalog.Tightens` — the same for files, with their constants.

Main statements:
* `Equate.parse?_strict` — strict equates are the legacy ones with the keyword;
* `Catalog.tightens_of_ofSource` — the legacy and the strict import of a source.
-/
import AsmCatalog.Proofs.Comparison
import AsmCatalog.Proofs.KeywordLetters
import Mathlib.Data.List.Nodup

namespace AsmCatalog

/-! ### Equates -/

namespace Equate

/-- Whether the second token of some code is the keyword, in any case of the letters A to
Z. -/
def hasKeyword (code : Text) : Bool :=
  (Text.tokens (Text.normalize code))[1]?.any (Text.sameLetters · equateKeyword)

theorem acceptsKeyword_strict (token : Text) :
    acceptsKeyword .strict token = Text.sameLetters token equateKeyword :=
  Text.spells_eq_sameLetters (by simp [AsciiOnly, equateKeyword]) rfl token

/-- What strict mode takes for the keyword legacy mode takes for it. -/
theorem acceptsKeyword_legacy {token : Text} (h : acceptsKeyword .strict token = true) :
    acceptsKeyword .legacy token = true := by
  have hlower : Unicode.lowercase token = equateKeyword := by
    simpa [acceptsKeyword, Text.spells] using h
  have hkeyword : Unicode.lowercase equateKeyword = equateKeyword := by decide
  show Text.contains (Unicode.lowercase equateKeyword) (Unicode.lowercase token) = true
  rw [hlower, hkeyword]
  exact Text.contains_iff.mpr List.infix_rfl

/-- The strict equates are the legacy ones whose second token is the keyword. -/
theorem parse?_strict (code : Text) :
    parse? .strict code = (parse? .legacy code).filter fun _ => hasKeyword code := by
  rw [parse?, parse?, hasKeyword]
  split
  · rename_i name keyword value _ htokens
    have hsecond : (Text.tokens (Text.normalize code))[1]? = some keyword := by rw [htokens]; rfl
    rw [hsecond, Option.any_some, ← acceptsKeyword_strict]
    by_cases hstrict : acceptsKeyword .strict keyword = true
    · rw [if_pos hstrict, if_pos (acceptsKeyword_legacy hstrict), hstrict, Option.filter_some,
        if_pos rfl]
    · rw [if_neg hstrict, Bool.not_eq_true _ |>.mp hstrict]
      split <;> rfl
  · rfl

theorem parse?_strict_eq_none {code : Text} (h : parse? .legacy code = none) :
    parse? .strict code = none := by
  rw [parse?_strict, h]
  rfl

end Equate

/-! ### Lines -/

/-- Whether the second token of a statement is the keyword of equates. -/
def Chunk.hasEquateKeyword (c : Chunk) : Bool :=
  c.statement?.any fun s => Equate.hasKeyword (codeOf s.text)

/-- What strict mode makes of the line of a legacy chunk: an equate was one before, with this
name and value, and a call is still one, with what it passes and to a macro of this name up to
the case of the letters A to Z. -/
structure Chunk.Tightens (c c' : Chunk) : Prop where
  same : c.through .segments = c'.through .segments
  equate : ∀ e, c'.equate? = some e → c.equate? = some e
  invocation : ∀ i, c.invocation? = some i → ∃ i', c'.invocation? = some i' ∧
    i'.contents = i.contents ∧ Text.sameLetters i'.callee.name i.callee.name = true

namespace Catalog

/-- Whether a constant stands on a line whose second token is the keyword of equates. -/
def standsByKeyword (file : Catalog) (k : Constant) : Bool :=
  file.allChunks.any fun c => c.line == k.line && c.hasEquateKeyword

/-- A strict file against a legacy file of the same source. -/
structure Tightens (file file' : Catalog) : Prop where
  /-- The files have the same lines at every depth, and strict mode tightens each. -/
  lines : List.Forall₂ Chunk.Tightens file.allChunks file'.allChunks
  /-- The strict constants are the legacy ones on lines with the keyword. -/
  constants : file'.constants = file.constants.filter file.standsByKeyword

section Files

variable {includes : List Catalog} {timeOver : Bool} {file file' : Catalog} {c c' : Chunk}

/-- No two chunks begin on one line. -/
theorem eq_of_line (h : file.allChunks.Pairwise Chunk.Above) (hc : c ∈ file.allChunks)
    (hc' : c' ∈ file.allChunks) (hline : c.line = c'.line) : c = c' := by
  have hdistinct : (file.allChunks.map (·.line)).Nodup :=
    List.pairwise_map.mpr (h.imp fun hab => Int.ne_of_lt hab.2)
  exact List.inj_on_of_nodup_map hdistinct hc hc' hline

theorem standsByKeyword_eq (h : file.allChunks.Pairwise Chunk.Above) (hc : c ∈ file.allChunks)
    {k : Constant} (hk : Constant.ofChunk? c = some k) :
    file.standsByKeyword k = c.hasEquateKeyword := by
  have hline : k.line = c.line := by
    rw [Constant.ofChunk?_eq] at hk
    obtain ⟨e, -, rfl⟩ := Option.map_eq_some_iff.mp hk
    rfl
  rw [Bool.eq_iff_iff, standsByKeyword, List.any_eq_true]
  constructor
  · rintro ⟨d, hd, hboth⟩
    rw [Bool.and_eq_true, beq_iff_eq, hline] at hboth
    rw [← eq_of_line h hd hc hboth.1]
    exact hboth.2
  · intro hkeyword
    exact ⟨c, hc, by rw [hline, beq_self_eq_true, hkeyword]; rfl⟩

variable (hlegacy : file.ReadBy { mode := .legacy, includes, timeOver })
  (hstrict : file'.ReadBy { mode := .strict, includes, timeOver })
include hlegacy hstrict

/-- The strict equate of a line is the legacy one, if its second token is the keyword. -/
theorem equate?_strict (hc : c ∈ file.allChunks) (hc' : c' ∈ file'.allChunks)
    (hsame : c.through .segments = c'.through .segments) :
    c'.equate? = c.equate?.filter fun _ => c.hasEquateKeyword := by
  rw [hlegacy.equate? hc, hstrict.equate? hc', Chunk.hasEquateKeyword]
  rcases Chunk.statement?_of_through hsame with ⟨hs, hs'⟩ | ⟨s, s', hs, hs', htext⟩
  · rw [hs, hs']
    rfl
  · rw [hs, hs', Option.bind_some, Option.bind_some, Option.any_some, htext]
    split
    · rfl
    · exact Equate.parse?_strict _

end Files

/-- The strict import of a source fails if and as the legacy import does, and otherwise its
file tightens the legacy one. -/
theorem tightens_of_ofSource (path : SourcePath) (source : Source) (start : Nat)
    (stopped timeOver : Bool) (includes : List Catalog) :
    Import.Alike Tightens
      (ofSource { mode := .legacy, includes, timeOver } path source start stopped).result
      (ofSource { mode := .strict, includes, timeOver } path source start stopped).result := by
  have hunseen : Import.Unseen .segments { mode := .legacy, includes, timeOver }
      { mode := .strict, includes, timeOver } := ⟨rfl, fun h => absurd h (by simp)⟩
  refine alike_of_unseen hunseen path source start stopped
    fun file file' _ hlegacy hstrict hfile => ⟨?_, ?_⟩
  · refine forall₂_of_through hfile fun c hc c' hc' hsame => ⟨hsame, fun e he => ?_, ?_⟩
    · rw [equate?_strict hlegacy hstrict hc hc' hsame] at he
      exact (Option.filter_eq_some_iff.mp he).1
    · intro i hi
      have hoffers : Import.Offers file.path { mode := .legacy, includes, timeOver }
          { mode := .strict, includes, timeOver } :=
        ⟨fun _ => rfl, fun _ => Equate.parse?_strict_eq_none, fun _ hf => hf, fun hown => hown⟩
      obtain ⟨code, hcall, hback⟩ := hlegacy.exists_code hstrict hoffers hc hc' hsame hi
      obtain ⟨i', hcall', hrenews⟩ := Invocation.exists_parse? hoffers.mode
        (fun _ ha => exists_candidate hoffers hfile c.position ha) hcall
      exact ⟨i', hback i' hcall', hrenews.contents, hrenews.letters⟩
  · have hkept : ∀ c ∈ file.allChunks,
        (Constant.ofChunk? c).filter file.standsByKeyword =
          (Constant.ofChunk? c).filter fun _ => c.hasEquateKeyword := by
      intro c hc
      cases hk : Constant.ofChunk? c with
      | none => rfl
      | some k => rw [Option.filter_some, Option.filter_some,
          standsByKeyword_eq hlegacy.above hc hk]
    have hpairs : List.Forall₂ (fun c c' =>
        (Constant.ofChunk? c).filter file.standsByKeyword = Constant.ofChunk? c')
        file.allChunks file'.allChunks := by
      refine forall₂_of_through hfile fun c hc c' hc' hsame => ?_
      obtain ⟨hpath, hposition, hline, hlength⟩ := Chunk.place_of_through hsame
      rw [hkept c hc, Constant.ofChunk?_eq, Constant.ofChunk?_eq,
        equate?_strict hlegacy hstrict hc hc' hsame, Option.filter_map, hpath, hposition, hline,
        hlength]
      rfl
    have hmaps : file.allChunks.map
        (fun c => (Constant.ofChunk? c).filter file.standsByKeyword) =
          file'.allChunks.map Constant.ofChunk? := by
      rw [← List.forall₂_eq_eq_eq]
      exact List.forall₂_map_left_iff.mpr (List.forall₂_map_right_iff.mpr hpairs)
    calc file'.constants = (file'.allChunks.map Constant.ofChunk?).filterMap id := by
          rw [hstrict.constants, List.filterMap_map]
          rfl
      _ = file.allChunks.filterMap
            fun c => (Constant.ofChunk? c).filter file.standsByKeyword := by
          rw [← hmaps, List.filterMap_map]
          rfl
      _ = file.constants.filter file.standsByKeyword := by
          rw [hlegacy.constants, List.filter_filterMap]

/-- A macro, an equate whose keyword is a longer word, and a call in another case. -/
def looseSource : Bytes :=
  Utf8.encode
    ['m', ' ', 'm', 'a', 'c', 'r', 'o', '\n', '\t', 'e', 'n', 'd', 'm', '\n', 'x', ' ', 'e', 'q',
      'u', 'a', 't', 'e', ' ', '1', '\n', '\t', 'M', ' ', '2', '\n']

/-- Legacy mode takes the one for an equate, and strict mode the other one for a call. -/
example :
    [Mode.legacy, .strict].map (fun mode =>
      (ofSource { mode } default (.ofBytes looseSource) 0 false).result.toOption.map
        fun file => (file.constants.length, file.invocations.length)) =
      [some (1, 0), some (0, 1)] := by
  decide +kernel

end Catalog

end AsmCatalog
