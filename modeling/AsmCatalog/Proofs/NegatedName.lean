/-
A `-` in front of the name of a constant.

The sign is put in front of whatever text takes the place of the name, round after round.  At
the end it negates the value of the text there, unless that text has a sign of its own.

Main definition:
* `SignCarried` — the rounds through which a `-` in front of a text is carried along.

Main statements:
* `rewritten?_minus` — a round carries a `-` in front of a text along;
* `SignCarried.resolveFor_eq` — so do all the rounds;
* `resolve_minus_iff` — when a `-` in front of a name negates its value.
-/
import AsmCatalog.Proofs.NameChain

namespace AsmCatalog

open Unicode (isWhiteSpace)
open Text

variable {constants : List Constant} {text next last name : Text} {c : Constant} {count : Nat}

/-! ### One round with a sign in front -/

/-- A `-` in front of a token stays in front of what takes its place. -/
theorem substitute?_cons_minus (h : text.head? ≠ some '-') :
    substitute? constants ('-' :: text) = (substitute? constants text).map ('-' :: ·) := by
  cases text with
  | nil => rfl
  | cons d rest =>
    rw [substitute?_minus (List.cons_ne_nil d rest),
      substitute?_of_head? (List.cons_ne_nil d rest) h, Option.map_map]
    rfl

/-- A round carries a `-` in front of a text along, if the text begins with no sign and no
white space other than blanks. -/
theorem rewritten?_minus (hdark : BeginsDark (withoutBlanks text))
    (hminus : text.head? ≠ some '-')
    (hnumber : soleNumber? (tokens (normalize ('-' :: text))) = none)
    (h : rewritten? constants text = some next) :
    rewritten? constants ('-' :: text) = some ('-' :: next) := by
  obtain ⟨first, more, htokens, hcons⟩ := tokens_normalize_cons (c := '-') (by decide) hdark
  rw [rewritten?, htokens] at h
  split at h
  · rename_i hround
    obtain rfl := Option.some.inj h
    obtain ⟨part, hpart, hsome⟩ := hround.2
    rw [rewritten?]
    rcases hcons with ⟨hhead, hjoined⟩ | halone
    · have hfirst : first.head? ≠ some '-' := fun hsign => hminus (hhead '-' hsign)
      rw [hjoined] at hnumber ⊢
      have hreplaced : (substitute? constants ('-' :: first)).getD ('-' :: first) =
          '-' :: (substitute? constants first).getD first := by
        rw [substitute?_cons_minus hfirst, Option.getD_map]
      have hany : ∃ part ∈ ('-' :: first) :: more, (substitute? constants part).isSome := by
        rcases List.mem_cons.mp hpart with rfl | hmore
        · refine ⟨_, List.mem_cons_self, ?_⟩
          rwa [substitute?_cons_minus hfirst, Option.isSome_map]
        · exact ⟨part, List.mem_cons_of_mem _ hmore, hsome⟩
      rw [if_pos ⟨hnumber, hany⟩, List.flatMap_cons, hreplaced, List.flatMap_cons,
        List.cons_append]
    · rw [halone] at hnumber ⊢
      rw [if_pos ⟨hnumber, part, List.mem_cons_of_mem _ hpart, hsome⟩, List.flatMap_cons]
      rfl
  · exact absurd h (by simp)

/-! ### All the rounds -/

/-- So many rounds take a text to another one, and would carry a `-` in front of it along: no
text that they pass begins with a sign or with white space other than blanks, or would be a
decimal number with the `-`. -/
inductive SignCarried (constants : List Constant) : Nat → Text → Text → Prop
  | nil (text : Text) : SignCarried constants 0 text text
  | round {count : Nat} {text next last : Text}
      (hdark : BeginsDark (withoutBlanks text))
      (hminus : text.head? ≠ some '-')
      (hnumber : soleNumber? (tokens (normalize ('-' :: text))) = none)
      (hround : rewritten? constants text = some next)
      (hrest : SignCarried constants count next last) : SignCarried constants (count + 1) text last

/-- The rounds go on at the same text with the `-` and without it. -/
theorem SignCarried.resolveFor_eq (h : SignCarried constants count text last) (rounds : Nat) :
    resolveFor constants (rounds + count) text = resolveFor constants rounds last ∧
      resolveFor constants (rounds + count) ('-' :: text) =
        resolveFor constants rounds ('-' :: last) := by
  induction h with
  | nil text => exact ⟨rfl, rfl⟩
  | @round count text next last hdark hminus hnumber hround hrest ih =>
    have hsigned := rewritten?_minus hdark hminus hnumber hround
    exact ⟨(resolveFor_of_rewritten hround _).trans ih.1,
      (resolveFor_of_rewritten hsigned _).trans ih.2⟩

/-- A name is replaced by the value of its constant. -/
theorem SignCarried.of_lastNamed (hname : IsWord name) (hminus : name.head? ≠ some '-')
    (hnumber : Literal.decimal? name = none) (hbeyond : Literal.decimal? ('-' :: name) = none)
    (hc : LastNamed constants name c) (h : SignCarried constants count c.value last) :
    SignCarried constants (count + 1) name last := by
  have hdark : BeginsDark (withoutBlanks name) := by
    rw [hname.withoutBlanks_eq]
    exact hname.beginsDark
  have hround : rewritten? constants name = some c.value := by
    rw [rewritten?_of_isWord hname hnumber, substitute?_of_head? hname.ne_nil hminus,
      findConstant?_eq_some_iff.mpr hc, Option.map_some]
  refine .round hdark hminus ?_ hround h
  rw [normalize_cons (by decide) hname.beginsDark, hname.normalize_eq, tokens,
    List.splitOn_eq_singleton (by simpa using hname.space_notMem)]
  exact hbeyond

/-- A `-` in front of the name of a constant negates its value exactly if it negates the text
that the rounds end at, be it that they are used up there or that nothing is left to replace.
A text with a sign of its own, and without a dollar sign, reads as zero behind the `-`. -/
theorem resolve_minus_iff (hname : IsWord name) (hminus : name.head? ≠ some '-')
    (hnumber : Literal.decimal? name = none) (hbeyond : Literal.decimal? ('-' :: name) = none)
    (hc : LastNamed constants name c) (h : SignCarried constants count c.value last) :
    (count + 1 = maxRounds → BeginsDark last →
      (resolve constants ('-' :: name) = -resolve constants name ↔ Literal.Negates last)) ∧
    (count + 1 < maxRounds → BeginsDark (withoutBlanks last) →
      rewritten? constants ('-' :: last) = none →
      (rewritten? constants last = none →
        (resolve constants ('-' :: name) = -resolve constants name ↔
          Literal.Negates (withoutBlanks last))) ∧
      (¬ Literal.Unsigned (withoutBlanks last) → '$' ∉ last →
        resolve constants ('-' :: name) = 0)) := by
  have hcarried := SignCarried.of_lastNamed hname hminus hnumber hbeyond hc h
  refine ⟨fun hcount hdark => ?_, fun hcount hdark hsettled => ?_⟩
  · obtain ⟨hplain, hsigned⟩ := hcarried.resolveFor_eq 0
    rw [Nat.zero_add, hcount] at hplain hsigned
    rw [resolve, resolve, hplain, hsigned]
    exact Literal.value_neg_iff hdark
  · obtain ⟨left, hleft⟩ : ∃ left, maxRounds = left + 1 + (count + 1) :=
      ⟨maxRounds - (count + 2), by omega⟩
    obtain ⟨hplain, hsigned⟩ := hcarried.resolveFor_eq (left + 1)
    rw [← hleft] at hplain hsigned
    rw [resolveFor_of_settled hsettled, withoutBlanks_cons (by decide) (by decide)] at hsigned
    refine ⟨fun hended => ?_, fun hsign hdollar => ?_⟩
    · rw [resolve, resolve, hplain, hsigned, resolveFor_of_settled hended]
      exact Literal.value_neg_iff hdark
    · rw [resolve, hsigned]
      refine Literal.value_minus_of_signed hdark hsign fun hmem => hdollar ?_
      obtain ⟨front, back, htext, -⟩ := exists_trim (withoutBlanks last)
      have hwithout : '$' ∈ withoutBlanks last := by
        rw [htext]
        exact List.mem_append_left _ (List.mem_append_right _ hmem)
      exact List.mem_of_mem_filter hwithout

/-- The `-` negates a hexadecimal number that the name stands for by way of another name, and
leaves nothing of a number that has a `-` already. -/
theorem resolve_minus_iff_alias :
    let constants : List Constant := [⟨['x'], ['y'], default, 0, 0, 0⟩,
      ⟨['y'], ['$', '1', 'F'], default, 0, 0, 0⟩, ⟨['z'], ['-', '5'], default, 0, 0, 0⟩]
    SignCarried constants 1 ['y'] ['$', '1', 'F'] ∧
      resolve constants ['-', 'x'] = -resolve constants ['x'] ∧ resolve constants ['x'] = 31 ∧
      resolve constants ['-', 'z'] = 0 ∧ resolve constants ['z'] = -5 := by
  intro constants
  have hcarried : SignCarried constants 1 ['y'] ['$', '1', 'F'] :=
    .round (by decide +kernel) (by decide) (by decide +kernel) (by decide +kernel) (.nil _)
  refine ⟨hcarried, ?_, by decide +kernel, ?_, by decide +kernel⟩
  · exact (((resolve_minus_iff (c := constants[0]) (by decide +kernel) (by decide)
      (by decide +kernel) (by decide +kernel) (by decide +kernel) hcarried).2 (by decide)
      (by decide +kernel) (by decide +kernel)).1 (by decide +kernel)).mpr (by decide +kernel)
  · exact ((resolve_minus_iff (c := constants[2]) (by decide +kernel) (by decide)
      (by decide +kernel) (by decide +kernel) (by decide +kernel) (.nil ['-', '5'])).2 (by decide)
      (by decide +kernel) (by decide +kernel)).2 (by decide +kernel) (by decide)

/-- The constant `x` is `-5`, and `-x` reads as zero. -/
theorem resolve_minus_ne_neg :
    let constants : List Constant := [⟨['x'], ['-', '5'], default, 0, 0, 0⟩]
    (IsWord ['x'] ∧ ['x'].head? ≠ some '-' ∧ Literal.decimal? ['x'] = none ∧
        Names constants ['x']) ∧
      resolve constants ['x'] = -5 ∧ resolve constants ['-', 'x'] = 0 := by
  decide +kernel

end AsmCatalog
