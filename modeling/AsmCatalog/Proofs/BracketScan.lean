/-
The arguments of a call, by the brackets in its text.

A `<` opens outside of brackets and a `>` closes inside, and neither counts elsewhere.  Once it
is known of every character whether it is met in brackets, the arguments are the parts of the
text between the commas outside, freed from the brackets and from all that is no letter and no
number outside.

Main definitions:
* `insideAfter`, `endsInside` — where the bracket scan stands behind a text;
* `Scanned`, `scanned` — the characters of a text, each with where it is met;
* `Scanned.divides`, `Scanned.brackets`, `Scanned.kept` — what becomes of a character.

Main statements:
* `splitArgumentsFrom_eq` — the arguments are what is kept between the dividing commas;
* `splitArguments_divides` — they split at these commas and nowhere else, and nothing else is
  lost.
-/
import AsmCatalog.Statement.Arguments

namespace AsmCatalog

open Unicode (isAlphanumeric)

/-! ### The bracket scan -/

/-- Where the scan stands behind a character, inside or outside of brackets. -/
def insideAfter (inside : Bool) (c : Char) : Bool := if inside then c ≠ '>' else c = '<'

/-- The scan of a text ends inside brackets. -/
def endsInside (text : Text) : Bool := text.foldl insideAfter false

/-- A character, and whether it is met inside brackets. -/
structure Scanned where
  inside : Bool
  char : Char
deriving DecidableEq

/-- The characters of a text that begins inside or outside of brackets, as they are met. -/
def scannedFrom (inside : Bool) (text : Text) : List Scanned :=
  List.zipWith Scanned.mk (text.scanl insideAfter inside) text

/-- The characters of a text as they are met. -/
def scanned (text : Text) : List Scanned := scannedFrom false text

namespace Scanned

/-- A comma outside of brackets. -/
def divides (s : Scanned) : Bool := !s.inside && s.char == ','

/-- A bracket that opens or closes. -/
def brackets (s : Scanned) : Bool := s.char == if s.inside then '>' else '<'

/-- A character that goes into an argument: it is no such bracket, and outside of brackets it
is a letter or a number. -/
def kept (s : Scanned) : Bool := !s.brackets && (s.inside || isAlphanumeric s.char)

/-- The characters that go into arguments. -/
def keptText (part : List Scanned) : Text := (part.filter kept).map char

end Scanned

variable {inside : Bool} {a : Text} {c : Char}

theorem scannedFrom_cons (inside : Bool) (c : Char) (text : Text) :
    scannedFrom inside (c :: text) = ⟨inside, c⟩ :: scannedFrom (insideAfter inside c) text := by
  rw [scannedFrom, List.scanl_cons, List.zipWith_cons_cons, ← scannedFrom]

theorem scannedFrom_append (inside : Bool) (a b : Text) :
    scannedFrom inside (a ++ b) =
      scannedFrom inside a ++ scannedFrom (a.foldl insideAfter inside) b := by
  induction a generalizing inside with
  | nil => rfl
  | cons c a ih =>
    rw [List.cons_append, scannedFrom_cons, ih, scannedFrom_cons, List.foldl_cons,
      List.cons_append]

/-- Behind a comma outside of brackets the scan begins anew. -/
theorem scanned_append_comma (h : endsInside a = false) (b : Text) :
    scanned (a ++ ',' :: b) = scanned a ++ ⟨false, ','⟩ :: scanned b := by
  have hend : a.foldl insideAfter false = false := h
  rw [scanned, scannedFrom_append, hend, scannedFrom_cons]
  rfl

/-- The characters are those of the text. -/
theorem map_char_scannedFrom (inside : Bool) (text : Text) :
    (scannedFrom inside text).map Scanned.char = text := by
  induction text generalizing inside with
  | nil => rfl
  | cons c text ih => rw [scannedFrom_cons, List.map_cons, ih]

/-! ### The arguments -/

namespace Scanned

/-- A comma that divides goes into no argument. -/
theorem divides_of_kept {s : Scanned} (h : s.kept = true) : s.divides = false := by
  obtain ⟨inside, c⟩ := s
  rw [← Bool.not_eq_true]
  intro hdivides
  rw [divides, Bool.and_eq_true, Bool.not_eq_true', beq_iff_eq] at hdivides
  obtain ⟨rfl, rfl⟩ := hdivides
  exact absurd h (by decide +kernel)

theorem keptText_cons (s : Scanned) (part : List Scanned) :
    keptText (s :: part) = if s.kept then s.char :: keptText part else keptText part := by
  rw [keptText, List.filter_cons]
  split <;> rfl

/-- A character in front of some parts that divides begins a new one, and any other goes to the
first of them if it is kept. -/
theorem map_keptText_splitOnP_cons (s : Scanned) (rest : List Scanned) :
    ((s :: rest).splitOnP divides).map keptText =
      if s.divides then [] :: (rest.splitOnP divides).map keptText
      else if s.kept then ((rest.splitOnP divides).map keptText).modifyHead (s.char :: ·)
      else (rest.splitOnP divides).map keptText := by
  obtain ⟨first, more, hparts⟩ :=
    List.exists_cons_of_ne_nil (List.splitOnP_ne_nil divides rest)
  rw [List.splitOnP_cons_eq_if_modifyHead, hparts]
  by_cases hdivides : s.divides = true
  · rw [if_pos hdivides, if_pos hdivides]
    rfl
  · rw [if_neg hdivides, if_neg hdivides, List.modifyHead_cons, List.map_cons, keptText_cons]
    split <;> rfl

end Scanned

open Scanned

/-- The same holds of the arguments. -/
theorem splitArgumentsFrom_cons (inside : Bool) (c : Char) (text : Text) :
    splitArgumentsFrom inside (c :: text) =
      if divides ⟨inside, c⟩ then [] :: splitArgumentsFrom (insideAfter inside c) text
      else if kept ⟨inside, c⟩ then
        (splitArgumentsFrom (insideAfter inside c) text).modifyHead (c :: ·)
      else splitArgumentsFrom (insideAfter inside c) text := by
  rw [splitArgumentsFrom]
  -- In brackets only a `>` is told from the rest, and outside only a comma and a `<`.
  cases inside with
  | true =>
    by_cases hclose : c = '>'
    · simp [hclose, insideAfter, divides, kept, brackets]
    · simp [hclose, insideAfter, divides, kept, brackets]
  | false =>
    by_cases hcomma : c = ','
    · simp [hcomma, insideAfter, divides]
    · by_cases hopen : c = '<'
      · simp [hopen, insideAfter, divides, kept, brackets]
      · simp [hcomma, hopen, insideAfter, divides, kept, brackets]

/-- The arguments are the parts between the commas outside of brackets, with what is kept of
them. -/
theorem splitArgumentsFrom_eq (inside : Bool) (text : Text) :
    splitArgumentsFrom inside text =
      ((scannedFrom inside text).splitOnP divides).map keptText := by
  induction text generalizing inside with
  | nil => rfl
  | cons c text ih =>
    rw [splitArgumentsFrom_cons, ih, scannedFrom_cons, map_keptText_splitOnP_cons]

theorem splitArguments_eq (text : Text) :
    splitArguments text = ((scanned text).splitOnP divides).map keptText :=
  splitArgumentsFrom_eq false text

theorem length_splitOnP {α : Type} (p : α → Bool) (l : List α) :
    (l.splitOnP p).length = l.countP p + 1 := by
  induction l with
  | nil => rfl
  | cons x rest ih =>
    rw [List.splitOnP_cons_eq_if_modifyHead, List.countP_cons]
    split
    · rw [List.length_cons, ih]
    · rw [List.length_modifyHead, ih, Nat.add_zero]

/-- All parts together hold what all of them keep. -/
theorem flatten_map_keptText (part : List Scanned) :
    ((part.splitOnP divides).map keptText).flatten = keptText part := by
  induction part with
  | nil => rfl
  | cons s rest ih =>
    obtain ⟨first, more, hparts⟩ :=
      List.exists_cons_of_ne_nil (List.splitOnP_ne_nil divides rest)
    rw [map_keptText_splitOnP_cons, keptText_cons, ← ih, hparts]
    by_cases hkept : s.kept = true
    · rw [if_neg (by rw [divides_of_kept hkept]; simp), if_pos hkept, if_pos hkept]
      rfl
    · rw [if_neg hkept, if_neg hkept]
      split <;> rfl

/-- The arguments of two texts with a comma between them are those of the first and then those
of the second, wherever the first one ends outside of brackets.  There is one argument more than
there are commas outside, and the arguments together are all that is kept of the text. -/
theorem splitArguments_divides :
    (∀ a b : Text, endsInside a = false →
        splitArguments (a ++ ',' :: b) = splitArguments a ++ splitArguments b) ∧
      ∀ text : Text, (scanned text).map Scanned.char = text ∧
        (splitArguments text).length = (scanned text).countP divides + 1 ∧
        (splitArguments text).flatten = ((scanned text).filter kept).map Scanned.char := by
  refine ⟨fun a b h => ?_, fun text => ⟨map_char_scannedFrom false text, ?_, ?_⟩⟩
  · have hcomma : divides ⟨false, ','⟩ = true := rfl
    rw [splitArguments_eq, scanned_append_comma h, List.splitOnP_append_cons _ _ hcomma,
      List.map_append, ← splitArguments_eq, ← splitArguments_eq]
  · rw [splitArguments_eq, List.length_map, length_splitOnP]
  · rw [splitArguments_eq, flatten_map_keptText, keptText]

/-- A bracket that opens in brackets or closes outside counts for nothing, and one that is not
closed encloses all that follows. -/
theorem splitArguments_divides_unbalanced :
    endsInside ['<', '<', ',', '>', '>', '$', '1'] = false ∧
      splitArguments (['<', '<', ',', '>', '>', '$', '1'] ++ ',' :: [',', '<', 'b', ',', ' ']) =
        splitArguments ['<', '<', ',', '>', '>', '$', '1'] ++
          splitArguments [',', '<', 'b', ',', ' '] ∧
      splitArguments ['<', '<', ',', '>', '>', '$', '1'] = [['<', ',', '1']] ∧
      splitArguments [',', '<', 'b', ',', ' '] = [[], ['b', ',', ' ']] :=
  ⟨rfl, splitArguments_divides.1 _ _ rfl, by decide +kernel, by decide +kernel⟩

end AsmCatalog
