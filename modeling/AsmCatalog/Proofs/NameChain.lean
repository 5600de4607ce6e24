/-
Chains of constants.

A constant may have the name of another one as its value.  Each round of substitution follows
one link of such a chain, to the last constant of the name, until the text is a number, or
until nothing has its name, or until the rounds are used up.

Main definitions:
* `LastNamed` — the constant that a name stands for, among those declared;
* `Chain` — the links from a text to another one;
* `Ends` — a text is where a chain ends by itself.

Main statements:
* `Chain.resolveFor_eq` — a chain of links takes as many rounds;
* `findConstant?_of_shadowed` — a constant with a later one of its name is never found;
* `resolve_eq_of_chain` — a text has the value of the end of its chain.
-/
import AsmCatalog.Proofs.Substitution

namespace AsmCatalog

open Unicode (lowercase)
open Text

variable {constants before after : List Constant} {text last name : Text} {c : Constant}
  {links rounds : Nat}

/-! ### The last constant of a name -/

/-- The constant is the last one with this name, in any spelling. -/
def LastNamed (constants : List Constant) (name : Text) (c : Constant) : Prop :=
  ∃ before after, constants = before ++ c :: after ∧ lowercase c.name = lowercase name ∧
    ¬ Names after name

theorem findConstant?_eq_some_iff :
    findConstant? constants name = some c ↔ LastNamed constants name c := by
  rw [findConstant?, List.find?_eq_some_iff_append]
  constructor
  · rintro ⟨hname, after, before, hreverse, hafter⟩
    refine ⟨before.reverse, after.reverse, ?_, by simpa using hname, ?_⟩
    · rw [← List.reverse_reverse constants, hreverse]
      simp
    · rintro ⟨d, hd, hsame⟩
      simpa [hsame] using hafter d (by simpa using hd)
  · rintro ⟨before, after, rfl, hname, hafter⟩
    refine ⟨by simpa using hname, after.reverse, before.reverse, by simp, fun d hd => ?_⟩
    have hother : lowercase d.name ≠ lowercase name := fun hsame =>
      hafter ⟨d, by simpa using hd, hsame⟩
    simpa using hother

instance (constants : List Constant) (name : Text) (c : Constant) :
    Decidable (LastNamed constants name c) :=
  decidable_of_iff _ findConstant?_eq_some_iff

/-- A constant with a later one of its name is never found. -/
theorem findConstant?_of_shadowed (h : Names after c.name) (name : Text) :
    findConstant? (before ++ c :: after) name = findConstant? (before ++ after) name := by
  rw [findConstant?, findConstant?, List.reverse_append, List.reverse_append, List.reverse_cons,
    List.append_assoc, List.find?_append, List.find?_append, List.find?_append]
  by_cases hsame : lowercase c.name = lowercase name
  · -- What is found then is behind it.
    have hfound : (findConstant? after name).isSome := by
      rw [Option.isSome_iff_ne_none, ne_eq, findConstant?_eq_none_iff, not_not]
      obtain ⟨d, hd, hname⟩ := h
      exact ⟨d, hd, hname.trans hsame⟩
    obtain ⟨d, hd⟩ := Option.isSome_iff_exists.mp hfound
    rw [findConstant?] at hd
    rw [hd, Option.some_or, Option.some_or]
  · rw [List.find?_cons_of_neg (by simpa using hsame), List.find?_nil, Option.none_or]

/-- The value of a text depends only on what its names stand for. -/
theorem resolveFor_congr {others : List Constant}
    (h : ∀ name, findConstant? constants name = findConstant? others name) :
    resolveFor constants rounds text = resolveFor others rounds text := by
  have hsubstitute : substitute? constants = substitute? others := by
    funext part
    rw [substitute?.eq_def, substitute?.eq_def]
    split <;> rw [h]
  induction rounds generalizing text with
  | zero => rfl
  | succ rounds ih =>
    rw [resolveFor, resolveFor, hsubstitute]
    split
    · rfl
    · split
      · exact ih
      · rfl

/-! ### Following the links -/

/-- The links that lead from a text to another one.  A text is a link if it is no decimal
number, has no `-` in front and names a constant; the value of the last constant of that name
is the text after it. -/
inductive Chain (constants : List Constant) : Nat → Text → Text → Prop
  | nil (text : Text) : Chain constants 0 text text
  | link {links : Nat} {text last : Text} {c : Constant} (hnumber : Literal.decimal? text = none)
      (hminus : text.head? ≠ some '-') (hc : LastNamed constants text c)
      (hrest : Chain constants links c.value last) : Chain constants (links + 1) text last

/-- A chain ends at a number, and at a text that names nothing. -/
def Ends (constants : List Constant) (text : Text) : Prop :=
  (Literal.decimal? text).isSome ∨ NamesNone constants text

instance (constants : List Constant) (text : Text) : Decidable (Ends constants text) :=
  inferInstanceAs (Decidable (_ ∨ _))

/-- The names and the values of constants are words. -/
def AreWords (constants : List Constant) : Prop :=
  ∀ c ∈ constants, IsWord c.name ∧ IsWord c.value

instance (constants : List Constant) : Decidable (AreWords constants) :=
  inferInstanceAs (Decidable (∀ c ∈ constants, IsWord c.name ∧ IsWord c.value))

theorem LastNamed.mem (h : LastNamed constants name c) : c ∈ constants := by
  obtain ⟨before, after, rfl, -, -⟩ := h
  exact List.mem_append_right before List.mem_cons_self

/-- A round replaces a word as a whole. -/
theorem rewritten?_of_isWord (h : IsWord text) (hnumber : Literal.decimal? text = none) :
    rewritten? constants text = substitute? constants text := by
  rw [rewritten?, h.tokens_eq]
  cases hsome : substitute? constants text with
  | none =>
    exact if_neg fun hround => by
      obtain ⟨part, hpart, hround⟩ := hround.2
      rw [List.mem_singleton.mp hpart, hsome] at hround
      exact absurd hround (by simp)
  | some next =>
    rw [if_pos ⟨hnumber, text, List.mem_singleton_self _, by rw [hsome]; rfl⟩,
      List.flatMap_singleton, hsome]
    rfl

/-- A round follows a link. -/
theorem resolveFor_of_lastNamed (h : IsWord text) (hnumber : Literal.decimal? text = none)
    (hminus : text.head? ≠ some '-') (hc : LastNamed constants text c) :
    resolveFor constants (rounds + 1) text = resolveFor constants rounds c.value := by
  refine resolveFor_of_rewritten ?_ rounds
  rw [rewritten?_of_isWord h hnumber, substitute?_of_head? h.ne_nil hminus,
    findConstant?_eq_some_iff.mpr hc, Option.map_some]

/-- A chain of links takes as many rounds. -/
theorem Chain.resolveFor_eq (hwords : AreWords constants) (htext : IsWord text)
    (h : Chain constants links text last) (rounds : Nat) :
    resolveFor constants (rounds + links) text = resolveFor constants rounds last ∧
      IsWord last := by
  induction h with
  | nil text => exact ⟨rfl, htext⟩
  | @link links text last c hnumber hminus hc hrest ih =>
    obtain ⟨hrun, hlast⟩ := ih (hwords c hc.mem).2
    exact ⟨(resolveFor_of_lastNamed htext hnumber hminus hc).trans hrun, hlast⟩

/-- A text where a chain ends has its own value, whatever rounds are left. -/
theorem resolveFor_of_ends (htext : IsWord text) (h : Ends constants text) :
    resolveFor constants rounds text = Literal.value text := by
  cases rounds with
  | zero => rfl
  | succ rounds =>
    have hsettled : rewritten? constants text = none := by
      cases hnumber : Literal.decimal? text with
      | some number =>
        rw [rewritten?, htext.tokens_eq]
        exact if_neg fun hround => absurd (hnumber.symm.trans hround.1) (by simp)
      | none =>
        have hnone : NamesNone constants text := h.resolve_left (by simp [hnumber])
        rw [rewritten?_of_isWord htext hnumber, substitute?_eq_none hnone]
    rw [resolveFor_of_settled hsettled, htext.withoutBlanks_eq]

/-- A text has the value of the end of its chain, if there are rounds for all of its links, and
of the text at which the rounds are used up otherwise.  Constants that have a later one of
their name make no difference. -/
theorem resolve_eq_of_chain (hwords : AreWords constants) :
    (∀ links text last, IsWord text → links ≤ 32 → Chain constants links text last →
      Ends constants last → resolve constants text = Literal.value last) ∧
    (∀ text last, IsWord text → Chain constants 32 text last →
      resolve constants text = Literal.value last) ∧
    ∀ before c after text, constants = before ++ c :: after → Names after c.name →
      resolve constants text = resolve (before ++ after) text := by
  refine ⟨fun links text last htext hlinks hchain hends => ?_, fun text last htext hchain => ?_,
    fun before c after text hconstants hshadowed => ?_⟩
  · obtain ⟨hrun, hlast⟩ := hchain.resolveFor_eq hwords htext (32 - links)
    rw [resolve, maxRounds, ← Nat.sub_add_cancel hlinks, hrun, resolveFor_of_ends hlast hends]
  · exact (hchain.resolveFor_eq hwords htext 0).1
  · rw [hconstants]
    exact resolveFor_congr (findConstant?_of_shadowed hshadowed)

/-- A chain of two links beside a constant that names itself. -/
theorem resolve_eq_of_chain_alias :
    let constants : List Constant := [⟨['a'], ['9'], default, 0, 0, 0⟩,
      ⟨['A'], ['b'], default, 0, 0, 0⟩, ⟨['b'], ['$', '1', 'f'], default, 0, 0, 0⟩,
      ⟨['z'], ['Z'], default, 0, 0, 0⟩]
    AreWords constants ∧ Ends constants ['$', '1', 'f'] ∧
      Chain constants 2 ['a'] ['$', '1', 'f'] ∧ resolve constants ['a'] = 31 ∧
      Chain constants 32 ['z'] ['Z'] ∧ resolve constants ['z'] = 0 ∧
      resolve constants ['a'] = resolve constants.tail ['a'] := by
  intro constants
  have hwords : AreWords constants := by decide +kernel
  have hends : Ends constants ['$', '1', 'f'] := by decide +kernel
  have hchain : Chain constants 2 ['a'] ['$', '1', 'f'] :=
    .link (c := constants[1]) (by decide +kernel) (by decide) (by decide +kernel)
      (.link (c := constants[2]) (by decide +kernel) (by decide) (by decide +kernel) (.nil _))
  have hloop : ∀ links, Chain constants links ['Z'] ['Z'] := by
    intro links
    induction links with
    | zero => exact .nil _
    | succ links ih =>
      exact .link (c := constants[3]) (by decide +kernel) (by decide) (by decide +kernel) ih
  have hcycle : Chain constants 32 ['z'] ['Z'] :=
    .link (c := constants[3]) (by decide +kernel) (by decide) (by decide +kernel) (hloop 31)
  obtain ⟨hended, hgiven, hshadowed⟩ := resolve_eq_of_chain hwords
  refine ⟨hwords, hends, hchain, ?_, hcycle, ?_, ?_⟩
  · rw [hended 2 _ _ (by decide +kernel) (by decide) hchain hends]
    decide +kernel
  · rw [hgiven _ _ (by decide +kernel) hcycle]
    decide +kernel
  · exact hshadowed [] constants[0] constants.tail ['a'] rfl (by decide +kernel)

end AsmCatalog
