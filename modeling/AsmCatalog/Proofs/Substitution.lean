/-
One round of substitution after the other.

A round puts the values of constants in the place of their names, and puts the tokens together
without the blanks between them.  Where nothing is replaced the text is read as a literal, so
that a text without names is read as if it had no blanks inside.

Main definitions:
* `Names` — a constant has a name, in any spelling;
* `rewritten?` — the text that a round makes of a text, if it replaces anything;
* `Nameless` — no token of a text names a constant.

Main statements:
* `resolveFor_of_rewritten`, `resolveFor_of_settled` — what a round is followed by;
* `resolve_of_nameless_iff` — the value of a text without names, and when it is that of the
  literal.
-/
import AsmCatalog.ConstantValue
import AsmCatalog.Proofs.LiteralText

namespace AsmCatalog

open Unicode (lowercase isWhiteSpace)
open Text

variable {constants : List Constant} {text name part : Text}

/-! ### Constants by their names -/

/-- Some constant has this name, in any spelling. -/
def Names (constants : List Constant) (name : Text) : Prop :=
  ∃ c ∈ constants, lowercase c.name = lowercase name

instance (constants : List Constant) (name : Text) : Decidable (Names constants name) :=
  inferInstanceAs (Decidable (∃ c ∈ constants, lowercase c.name = lowercase name))

theorem findConstant?_eq_none_iff :
    findConstant? constants name = none ↔ ¬ Names constants name := by
  simp [findConstant?, Names]

/-- A token names no constant, neither as it stands nor without a `-` in front of it. -/
def NamesNone (constants : List Constant) (part : Text) : Prop :=
  ¬ Names constants part ∧ (part.head? = some '-' → ¬ Names constants part.tail)

instance (constants : List Constant) (part : Text) : Decidable (NamesNone constants part) :=
  inferInstanceAs (Decidable (_ ∧ _))

theorem substitute?_minus (h : name ≠ []) : substitute? constants ('-' :: name) =
    (findConstant? constants name).map fun c => '-' :: c.value := by
  rw [substitute?, if_neg (by simpa using h)]

theorem substitute?_of_head? (hne : part ≠ []) (hhead : part.head? ≠ some '-') :
    substitute? constants part = (findConstant? constants part).map (·.value) := by
  rw [substitute?.eq_def]
  split
  · exact absurd rfl hhead
  · rw [if_neg (by simpa using hne)]

theorem substitute?_eq_none (h : NamesNone constants part) :
    substitute? constants part = none := by
  rw [substitute?.eq_def]
  split
  · rename_i name
    have hname : ¬ Names constants name := h.2 rfl
    rw [findConstant?_eq_none_iff.mpr hname]
    exact ite_self none
  · rw [findConstant?_eq_none_iff.mpr h.1]
    exact ite_self none

/-! ### One round -/

/-- The text that a round of substitution makes of a text.  It is nothing if the text is a
number already, or if none of its tokens names a constant. -/
def rewritten? (constants : List Constant) (text : Text) : Option Text :=
  let parts := tokens (normalize text)
  if soleNumber? parts = none ∧ ∃ part ∈ parts, (substitute? constants part).isSome then
    some (parts.flatMap fun part => (substitute? constants part).getD part)
  else none

theorem resolveFor_of_rewritten {next : Text} (h : rewritten? constants text = some next)
    (rounds : Nat) :
    resolveFor constants (rounds + 1) text = resolveFor constants rounds next := by
  rw [rewritten?] at h
  split at h
  · rename_i hround
    obtain rfl := Option.some.inj h
    rw [resolveFor, hround.1]
    exact if_pos (List.any_eq_true.mpr hround.2)
  · exact absurd h (by simp)

theorem soleNumber?_eq_some {parts : List Text} {number : Int}
    (h : soleNumber? parts = some number) :
    ∃ part, parts = [part] ∧ Literal.decimal? part = some number := by
  rw [soleNumber?.eq_def] at h
  split at h
  · exact ⟨_, rfl, h⟩
  · exact absurd h (by simp)

/-- A round that replaces nothing is the last one, and the blanks of the text are lost. -/
theorem resolveFor_of_settled (h : rewritten? constants text = none) (rounds : Nat) :
    resolveFor constants (rounds + 1) text = Literal.value (withoutBlanks text) := by
  have hvalue : Literal.value (tokens (normalize text)).flatten =
      Literal.value (withoutBlanks text) := Literal.value_congr (trim_flatten_tokens text)
  rw [resolveFor, ← hvalue]
  cases hsole : soleNumber? (tokens (normalize text)) with
  | some number =>
    obtain ⟨part, hpart, hnumber⟩ := soleNumber?_eq_some hsole
    rw [hpart, List.flatten_singleton, Literal.value_of_decimal? hnumber]
  | none =>
    have hnone : ∀ part ∈ tokens (normalize text), substitute? constants part = none := by
      intro part hpart
      by_contra hsome
      rw [rewritten?, if_pos ⟨hsole, part, hpart, Option.isSome_iff_ne_none.mpr hsome⟩] at h
      exact absurd h (by simp)
    have hparts : ((tokens (normalize text)).flatMap fun part =>
        (substitute? constants part).getD part) = (tokens (normalize text)).flatten := by
      rw [List.flatMap_def, List.map_congr_left (g := id) fun part hpart => by
        rw [hnone part hpart]
        rfl, List.map_id]
    have hany : ((tokens (normalize text)).any fun part =>
        (substitute? constants part).isSome) = false := by
      rw [List.any_eq_false]
      intro part hpart
      simp [hnone part hpart]
    simp only [hany, hparts]
    rfl

/-! ### Texts without names -/

/-- No token of the text names a constant. -/
def Nameless (constants : List Constant) (text : Text) : Prop :=
  ∀ part ∈ tokens (normalize text), NamesNone constants part

instance (constants : List Constant) (text : Text) : Decidable (Nameless constants text) :=
  inferInstanceAs (Decidable (∀ part ∈ tokens (normalize text), NamesNone constants part))

theorem rewritten?_of_nameless (h : Nameless constants text) :
    rewritten? constants text = none := by
  rw [rewritten?, if_neg]
  rintro ⟨-, part, hpart, hsome⟩
  rw [substitute?_eq_none (h part hpart)] at hsome
  exact absurd hsome (by simp)

/-- Blanks inside a text make it unreadable, and blanks around it make no difference. -/
theorem value_withoutBlanks_iff : Literal.value (withoutBlanks text) = Literal.value text ↔
    (' ' ∉ trim text ∧ '\t' ∉ trim text) ∨ Literal.value (withoutBlanks text) = 0 := by
  by_cases hblank : ' ' ∉ trim text ∧ '\t' ∉ trim text
  · refine iff_of_true (Literal.value_congr ?_) (.inl hblank)
    have hkept : withoutBlanks (trim text) = trim text := by
      refine List.filter_eq_self.mpr fun c hc => ?_
      have hspace : c ≠ ' ' := fun heq => hblank.1 (heq ▸ hc)
      have htab : c ≠ '\t' := fun heq => hblank.2 (heq ▸ hc)
      simp [hspace, htab]
    rw [withoutBlanks, ← trim_filter, ← withoutBlanks, hkept, trim_trim]
  · have hzero : Literal.value text = 0 := by
      rcases not_and_or.mp hblank with hspace | htab
      · exact Literal.value_eq_zero_of_white (not_not.mp hspace) (by decide)
      · exact Literal.value_eq_zero_of_white (not_not.mp htab) (by decide)
    rw [hzero]
    exact ⟨.inr, fun hor => hor.resolve_left hblank⟩

/-- A text without names has the value of what is left of it without its blanks.  That is the
value of the text as a literal exactly if it has no blanks inside, or if nothing can be read
of it without them either. -/
theorem resolve_of_nameless_iff (h : Nameless constants text) :
    resolve constants text = Literal.value (withoutBlanks text) ∧
      (resolve constants text = Literal.value text ↔
        (' ' ∉ trim text ∧ '\t' ∉ trim text) ∨ Literal.value (withoutBlanks text) = 0) := by
  have hresolve : resolve constants text = Literal.value (withoutBlanks text) :=
    resolveFor_of_settled (rewritten?_of_nameless h) 31
  refine ⟨hresolve, ?_⟩
  rw [hresolve]
  exact value_withoutBlanks_iff

/-- A tab inside a hexadecimal number, beside a constant of another name. -/
theorem resolve_of_nameless_iff_spaced :
    let constants : List Constant := [⟨['x'], ['5'], default, 0, 0, 0⟩]
    let text : Text := ['$', '1', '\t', 'f']
    Nameless constants text ∧ resolve constants text = 31 ∧
      resolve constants text ≠ Literal.value text := by
  intro constants text
  have hnameless : Nameless constants text := by decide +kernel
  obtain ⟨hresolve, hsame⟩ := resolve_of_nameless_iff hnameless
  refine ⟨hnameless, ?_, ?_⟩
  · rw [hresolve]
    decide +kernel
  · rw [ne_eq, hsame]
    decide +kernel

/-- The text `1 2` names no constant, and is no literal, yet it resolves to twelve. -/
theorem resolve_ne_value :
    Nameless [] ['1', ' ', '2'] ∧ resolve [] ['1', ' ', '2'] = 12 ∧
      Literal.value ['1', ' ', '2'] = 0 := by
  decide +kernel

end AsmCatalog
