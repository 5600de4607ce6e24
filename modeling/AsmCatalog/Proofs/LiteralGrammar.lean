/-
The grammar of literals.

A numeral is one or more digits of a base and writes the number with those digits; a signed
number has at most one sign in front of its numeral.  A literal without a dollar sign is a
signed decimal number.  One with a dollar sign is a signed hexadecimal number once every
dollar sign has been left out, and a `-` at its front may be there in addition, to negate it.
What is no literal reads as zero, and so does a number out of range.  The one number in range
whose negative is not overflows where it is to be negated, and wraps around to itself.

Main definitions:
* `Literal.Numeral`, `Literal.Signed` — digits and signed numbers, with what they write;
* `Literal.Written` — a literal, the number that it writes, and whether that is negated;
* `Literal.Reads` — what a literal within range reads as;
* `Literal.Overflows` — the number in range whose negative is not, with a sign to negate it;
* `Literal.Exact` — a text reads as the grammar says.

Main statements:
* `Literal.ofDigits?_eq_some_iff`, `Literal.ofSigned?_eq_some_iff` — the functions that read
  digits and signed numbers accept exactly these, with these values;
* `Literal.value_of_written`, `Literal.exists_written_of_ne_zero` — the value of a literal in
  range, and that nothing else has a value but zero;
* `Literal.exact_of_not_overflows` — every text but those that overflow reads as the grammar
  says.
-/
import AsmCatalog.Proofs.LiteralText
import Mathlib.Data.List.Forall2
import Mathlib.Data.Nat.Digits.Defs

namespace AsmCatalog.Literal

open Text

variable {base n : Nat} {text digits : Text} {c : Char} {v w : Int} {negated : Bool}

/-! ### Digits -/

/-- The character is the digit of the base with the value `d`.  Letters stand in either case. -/
def IsDigit (base : Nat) (c : Char) (d : Nat) : Prop :=
  d < base ∧ (c = d.digitChar ∨ c = d.digitChar.toUpper)

/-- One or more digits write a number, the highest digit first. -/
def Numeral (base : Nat) (text : Text) (n : Nat) : Prop :=
  text ≠ [] ∧ ∃ digits, List.Forall₂ (IsDigit base) text digits ∧
    n = Nat.ofDigits base digits.reverse

/-- The digits of a lower base are those digits of base sixteen that are small enough. -/
theorem digit?_eq_some_iff_lt (hbase : base ≤ 16) {d : Nat} :
    digit? base c = some d ↔ d < base ∧ digit? 16 c = some d := by
  rw [digit?, digit?, Option.filter_eq_some_iff, Option.filter_eq_some_iff, decide_eq_true_iff,
    decide_eq_true_iff]
  constructor
  · rintro ⟨hraw, hd⟩
    exact ⟨hd, hraw, by omega⟩
  · rintro ⟨hd, hraw, -⟩
    exact ⟨hraw, hd⟩

theorem digit?_sixteen_iff {d : Nat} : digit? 16 c = some d ↔ IsDigit 16 c d := by
  constructor
  · intro h
    have hsmall : d < 16 := by
      rw [digit?, Option.filter_eq_some_iff] at h
      exact of_decide_eq_true h.2
    have hascii : c.toNat < 0x80 := by
      rcases digit?_range h with h | h | h <;> exact Nat.lt_of_le_of_lt h.2 (by decide)
    -- The characters below 0x80 are few enough to look at each with each value.
    have hall : ∀ k < 0x80, ∀ d < 16, digit? 16 (Char.ofNat k) = some d →
        Char.ofNat k = d.digitChar ∨ Char.ofNat k = d.digitChar.toUpper := by decide +kernel
    have hchar := hall c.toNat hascii d hsmall
    rw [Char.ofNat_toNat] at hchar
    exact ⟨hsmall, hchar h⟩
  · rintro ⟨hsmall, rfl | rfl⟩
    · have hall : ∀ d < 16, digit? 16 d.digitChar = some d := by decide +kernel
      exact hall d hsmall
    · have hall : ∀ d < 16, digit? 16 d.digitChar.toUpper = some d := by decide +kernel
      exact hall d hsmall

theorem digit?_eq_some_iff (hbase : base ≤ 16) {d : Nat} :
    digit? base c = some d ↔ IsDigit base c d := by
  rw [digit?_eq_some_iff_lt hbase, digit?_sixteen_iff, IsDigit, IsDigit]
  constructor
  · rintro ⟨hd, -, hchar⟩
    exact ⟨hd, hchar⟩
  · rintro ⟨hd, hchar⟩
    exact ⟨hd, by omega, hchar⟩

/-! ### Numerals -/

/-- What the digits of a text write behind the number that was read before them. -/
theorem ofDigitsAfter?_eq_some_iff (hbase : base ≤ 16) {high : Nat} :
    ofDigitsAfter? base high text = some n ↔
      ∃ digits, List.Forall₂ (IsDigit base) text digits ∧
        n = base ^ digits.length * high + Nat.ofDigits base digits.reverse := by
  induction text generalizing high with
  | nil =>
    rw [ofDigitsAfter?, Option.some.injEq]
    constructor
    · rintro rfl
      exact ⟨[], .nil, by simp⟩
    · rintro ⟨digits, hdigits, rfl⟩
      obtain rfl := List.forall₂_nil_left_iff.mp hdigits
      simp
  | cons c rest ih =>
    -- The first digit moves up by as many places as there are digits behind it.
    have hplaces : ∀ (d : Nat) (ds : List Nat),
        base ^ ds.length * (base * high + d) + Nat.ofDigits base ds.reverse =
          base ^ (d :: ds).length * high + Nat.ofDigits base (d :: ds).reverse := by
      intro d ds
      rw [List.reverse_cons, Nat.ofDigits_append, List.length_reverse, Nat.ofDigits_singleton,
        List.length_cons]
      ring
    have hstep : ofDigitsAfter? base high (c :: rest) =
        (digit? base c).bind fun d => ofDigitsAfter? base (base * high + d) rest := rfl
    rw [hstep, Option.bind_eq_some_iff]
    constructor
    · rintro ⟨d, hd, hrest⟩
      obtain ⟨ds, hds, rfl⟩ := ih.mp hrest
      exact ⟨d :: ds, .cons ((digit?_eq_some_iff hbase).mp hd) hds, hplaces d ds⟩
    · rintro ⟨digits, hdigits, rfl⟩
      obtain ⟨d, ds, hd, hds, rfl⟩ := List.forall₂_cons_left_iff.mp hdigits
      exact ⟨d, (digit?_eq_some_iff hbase).mpr hd, ih.mpr ⟨ds, hds, (hplaces d ds).symm⟩⟩

theorem ofDigits?_eq_some_iff (hbase : base ≤ 16) :
    ofDigits? base text = some n ↔ Numeral base text n := by
  rw [ofDigits?, Numeral]
  by_cases hnil : text = []
  · subst hnil
    simp
  · rw [if_neg (by simpa using hnil), ofDigitsAfter?_eq_some_iff hbase, and_iff_right hnil]
    simp

/-- A numeral begins with no sign. -/
theorem unsigned_of_ofDigits? (h : ofDigits? base text = some n) : Unsigned text := by
  intro c hc
  have hdigit : digit? base c ≠ none := by
    intro hnone
    rw [ofDigits?_eq_none (List.mem_of_head? hc) hnone] at h
    exact absurd h (by simp)
  constructor
  · rintro rfl
    exact hdigit (digit?_eq_none (.inr (by simp)))
  · rintro rfl
    exact hdigit (digit?_eq_none (.inr (by simp)))

/-! ### Signed numbers -/

/-- A text of at most one sign and a numeral writes a number. -/
inductive Signed (base : Nat) : Text → Int → Prop where
  | plain {digits : Text} {n : Nat} (h : Numeral base digits n) : Signed base digits n
  | plus {digits : Text} {n : Nat} (h : Numeral base digits n) : Signed base ('+' :: digits) n
  | minus {digits : Text} {n : Nat} (h : Numeral base digits n) :
      Signed base ('-' :: digits) (-n)

/-- A number is a signed integer of 64 bits. -/
def InRange (v : Int) : Prop := -2 ^ 63 ≤ v ∧ v ≤ 2 ^ 63 - 1

instance (v : Int) : Decidable (InRange v) := inferInstanceAs (Decidable (_ ∧ _))

theorem inRange_iff : InRange v ↔ least ≤ v ∧ v ≤ greatest := by
  rw [InRange, least, greatest]
  norm_num

theorem unbounded?_eq_some_iff (hbase : base ≤ 16) :
    unbounded? base text = some v ↔ Signed base text v := by
  constructor
  · intro h
    rw [unbounded?.eq_def] at h
    split at h
    · rename_i digits
      cases hdigits : ofDigits? base digits with
      | none =>
        rw [hdigits] at h
        exact absurd h (by simp)
      | some n =>
        rw [hdigits] at h
        obtain rfl := Option.some.inj h
        exact .minus ((ofDigits?_eq_some_iff hbase).mp hdigits)
    · obtain ⟨n, hn, rfl⟩ := Option.map_eq_some_iff.mp h
      exact .plus ((ofDigits?_eq_some_iff hbase).mp hn)
    · obtain ⟨n, hn, rfl⟩ := Option.map_eq_some_iff.mp h
      exact .plain ((ofDigits?_eq_some_iff hbase).mp hn)
  · intro h
    cases h with
    | plain hn =>
      have hdigits := (ofDigits?_eq_some_iff hbase).mpr hn
      rw [unbounded?_of_unsigned (unsigned_of_ofDigits? hdigits), hdigits]
      rfl
    | plus hn =>
      rw [unbounded?, (ofDigits?_eq_some_iff hbase).mpr hn]
      rfl
    | minus hn =>
      rw [unbounded?_minus, (ofDigits?_eq_some_iff hbase).mpr hn]
      rfl

theorem ofSigned?_eq_some_iff (hbase : base ≤ 16) :
    ofSigned? base text = some v ↔ Signed base text v ∧ InRange v := by
  rw [ofSigned?, Option.filter_eq_some_iff, unbounded?_eq_some_iff hbase, decide_eq_true_iff,
    inRange_iff]

/-! ### Literals -/

/-- A text without its dollar signs. -/
def withoutDollars (text : Text) : Text := text.filter (· ≠ '$')

/-- A text with no white space at its ends is a literal that writes a number, which is to be
negated if `negated` holds. -/
inductive Written (text : Text) : Bool → Int → Prop where
  | decimal {v : Int} (hdollar : '$' ∉ text) (hnumber : Signed 10 text v) :
      Written text false v
  | hexadecimal {v : Int} (hdollar : '$' ∈ text)
      (hplain : (withoutDollars text).head? ≠ some '-')
      (hnumber : Signed 16 (withoutDollars text) v) : Written text false v
  | negated {digits : Text} {v : Int} (hdollar : '$' ∈ text)
      (hminus : withoutDollars text = '-' :: digits) (hnumber : Signed 16 digits v) :
      Written text true v

/-- A literal whose number is in range reads as that number, or as the negated number. -/
def Reads (text : Text) (v : Int) : Prop :=
  ∃ negated w, Written text negated w ∧ InRange w ∧ v = if negated then -w else w

/-- The number of a literal is the one in range whose negative is not, and is to be negated. -/
def Overflows (text : Text) : Prop := Written text true (-2 ^ 63)

/-- Only hexadecimal literals with a `-` in front are negated. -/
theorem written_true_iff : Written text true v ↔
    '$' ∈ text ∧ (withoutDollars text).head? = some '-' ∧
      Signed 16 (withoutDollars text).tail v := by
  constructor
  · intro h
    cases h with
    | negated hdollar hminus hnumber => exact ⟨hdollar, by rw [hminus]; rfl, by rwa [hminus]⟩
  · rintro ⟨hdollar, hhead, hnumber⟩
    exact .negated hdollar (List.cons_head?_tail hhead).symm hnumber

instance (text : Text) : Decidable (Overflows text) :=
  decidable_of_iff ('$' ∈ text ∧ (withoutDollars text).head? = some '-' ∧
      ofSigned? 16 (withoutDollars text).tail = some least) (by
    rw [Overflows, written_true_iff, ofSigned?_eq_some_iff (Nat.le_refl 16)]
    have hleast : least = -2 ^ 63 := by decide
    have hrange : InRange least := by decide
    rw [and_iff_left hrange, hleast])

/-- A literal in range has its number as value, negated in 64 bits if it is to be negated. -/
theorem value_of_written (h : Written (trim text) negated w) (hrange : InRange w) :
    value text = if negated then negate w else w := by
  cases h with
  | decimal hdollar hnumber =>
    rw [value_of_no_dollar hdollar, (ofSigned?_eq_some_iff (by decide)).mpr ⟨hnumber, hrange⟩]
    rfl
  | hexadecimal hdollar hplain hnumber =>
    rw [value_of_no_minus hdollar hplain, ← withoutDollars,
      (ofSigned?_eq_some_iff (Nat.le_refl 16)).mpr ⟨hnumber, hrange⟩]
    rfl
  | negated hdollar hminus hnumber =>
    rw [value_of_minus hdollar hminus,
      (ofSigned?_eq_some_iff (Nat.le_refl 16)).mpr ⟨hnumber, hrange⟩]
    rfl

/-- The least number, to be negated, is left as it is. -/
example : value ('$' :: '-' :: '-' :: '8' :: List.replicate 15 '0') = -2 ^ 63 := by decide +kernel

/-- What does not read as zero is a literal in range. -/
theorem exists_written_of_ne_zero (h : value text ≠ 0) :
    ∃ negated w, Written (trim text) negated w ∧ InRange w := by
  by_cases hdollar : '$' ∈ trim text
  · by_cases hminus : (withoutDollars (trim text)).head? = some '-'
    · obtain ⟨digits, hcons⟩ := List.head?_eq_some_iff.mp hminus
      rw [value_of_minus hdollar hcons] at h
      cases hread : ofSigned? 16 digits with
      | none => exact absurd (by rw [hread, Option.getD_none, negate_zero]) h
      | some w =>
        obtain ⟨hnumber, hrange⟩ := (ofSigned?_eq_some_iff (Nat.le_refl 16)).mp hread
        exact ⟨true, w, .negated hdollar hcons hnumber, hrange⟩
    · rw [value_of_no_minus hdollar hminus, ← withoutDollars] at h
      cases hread : ofSigned? 16 (withoutDollars (trim text)) with
      | none => exact absurd (by rw [hread]; rfl) h
      | some w =>
        obtain ⟨hnumber, hrange⟩ := (ofSigned?_eq_some_iff (Nat.le_refl 16)).mp hread
        exact ⟨false, w, .hexadecimal hdollar hminus hnumber, hrange⟩
  · rw [value_of_no_dollar hdollar] at h
    cases hread : ofSigned? 10 (trim text) with
    | none => exact absurd (by rw [hread]; rfl) h
    | some w =>
      obtain ⟨hnumber, hrange⟩ := (ofSigned?_eq_some_iff (by decide)).mp hread
      exact ⟨false, w, .decimal hdollar hnumber, hrange⟩

/-- A text writes one number at most, in one way. -/
theorem Signed.eq (hbase : base ≤ 16) (h : Signed base text v) (h' : Signed base text w) :
    v = w := by
  rw [← unbounded?_eq_some_iff hbase] at h h'
  exact Option.some.inj (h.symm.trans h')

theorem Written.eq {negated' : Bool} (h : Written text negated v) (h' : Written text negated' w) :
    negated = negated' ∧ v = w := by
  cases h with
  | decimal hdollar hnumber =>
    cases h' with
    | decimal _ hnumber' => exact ⟨rfl, hnumber.eq (by decide) hnumber'⟩
    | hexadecimal hdollar' _ _ => exact absurd hdollar' hdollar
    | negated hdollar' _ _ => exact absurd hdollar' hdollar
  | hexadecimal hdollar hplain hnumber =>
    cases h' with
    | decimal hdollar' _ => exact absurd hdollar hdollar'
    | hexadecimal _ _ hnumber' => exact ⟨rfl, hnumber.eq (Nat.le_refl 16) hnumber'⟩
    | negated _ hminus _ => exact absurd (by rw [hminus]; rfl) hplain
  | negated hdollar hminus hnumber =>
    cases h' with
    | decimal hdollar' _ => exact absurd hdollar hdollar'
    | hexadecimal _ hplain _ => exact absurd (by rw [hminus]; rfl) hplain
    | negated _ hminus' hnumber' =>
      obtain ⟨-, rfl⟩ := List.cons.inj (hminus.symm.trans hminus')
      exact ⟨rfl, hnumber.eq (Nat.le_refl 16) hnumber'⟩

/-- A text reads as the grammar says. -/
structure Exact (text : Text) : Prop where
  /-- The value is that of the literal that the trimmed text is, and zero if it is none. -/
  value_iff : ∀ v, value text = v ↔
    Reads (trim text) v ∨ v = 0 ∧ ∀ w, ¬ Reads (trim text) w
  /-- The value is a signed integer of 64 bits. -/
  inRange : InRange (value text)
  /-- A number out of range reads as zero. -/
  beyond : ∀ negated w, Written (trim text) negated w → ¬ InRange w → value text = 0
  /-- So does one that is out of range for its digits alone, behind a `-` and a dollar sign. -/
  negatedBeyond : ∀ digits n, trim text = '-' :: '$' :: digits → Numeral 16 digits n →
    2 ^ 63 ≤ n → value text = 0

/-- Every text reads as the grammar says, except for the number whose negation overflows. -/
theorem exact_of_not_overflows (h : ¬ Overflows (trim text)) : Exact text := by
  have hvalue : ∀ negated w, Written (trim text) negated w → InRange w →
      value text = if negated then -w else w := by
    intro negated w hwritten hrange
    rw [value_of_written hwritten hrange]
    cases negated with
    | false => rfl
    | true =>
      -- Only the least number has its negative out of range.
      refine negate_of_ne ?_
      rintro rfl
      exact h hwritten
  have hzero : (∀ w, ¬ Reads (trim text) w) → value text = 0 := by
    intro hnone
    by_contra hne
    obtain ⟨negated, w, hwritten, hrange⟩ := exists_written_of_ne_zero hne
    exact hnone _ ⟨negated, w, hwritten, hrange, rfl⟩
  have hbeyond : ∀ negated w, Written (trim text) negated w → ¬ InRange w → value text = 0 := by
    intro negated w hwritten hout
    refine hzero ?_
    rintro v ⟨negated', w', hwritten', hrange, -⟩
    exact hout ((hwritten.eq hwritten').2 ▸ hrange)
  refine ⟨fun v => ⟨?_, ?_⟩, ?_, hbeyond, ?_⟩
  · rintro rfl
    by_cases hreads : ∃ w, Reads (trim text) w
    · obtain ⟨-, negated, w, hwritten, hrange, -⟩ := hreads
      exact .inl ⟨negated, w, hwritten, hrange, hvalue negated w hwritten hrange⟩
    · have hnone := not_exists.mp hreads
      exact .inr ⟨hzero hnone, hnone⟩
  · rintro (⟨negated, w, hwritten, hrange, rfl⟩ | ⟨rfl, hnone⟩)
    · exact hvalue negated w hwritten hrange
    · exact hzero hnone
  · exact inRange_iff.mpr (value_range text)
  · intro digits n htrim hnumeral hlarge
    have hunsigned := unsigned_of_ofDigits? ((ofDigits?_eq_some_iff (Nat.le_refl 16)).mpr hnumeral)
    have hdigits : withoutDollars digits = digits := by
      refine List.filter_eq_self.mpr fun c hc => decide_eq_true ?_
      rintro rfl
      have hdollar : digit? 16 '$' = none := digit?_eq_none (.inr (by simp))
      have hnone := ofDigits?_eq_none hc hdollar
      rw [(ofDigits?_eq_some_iff (Nat.le_refl 16)).mpr hnumeral] at hnone
      exact absurd hnone (by simp)
    have hminus : withoutDollars (trim text) = '-' :: digits := by
      rw [htrim, withoutDollars, List.filter_cons_of_pos (by decide),
        List.filter_cons_of_neg (by decide), ← withoutDollars, hdigits]
    refine hbeyond true n (.negated (by rw [htrim]; simp) hminus (.plain hnumeral)) ?_
    rw [InRange]
    omega

/-- Digits that write the number just above the range, behind a `-` and a dollar sign.  With
the sign it would be in range, but the digits are judged by themselves. -/
def justBeyond : Text := ' ' :: '-' :: '$' :: '8' :: List.replicate 15 '0'

theorem exact_of_not_overflows_justBeyond :
    ¬ Overflows (trim justBeyond) ∧ Exact justBeyond ∧ value justBeyond = 0 := by
  have hfits : ¬ Overflows (trim justBeyond) := by decide +kernel
  have hexact : Exact justBeyond := exact_of_not_overflows hfits
  have hnumeral : Numeral 16 ('8' :: List.replicate 15 '0') (2 ^ 63) :=
    (ofDigits?_eq_some_iff (Nat.le_refl 16)).mp (by decide +kernel)
  exact ⟨hfits, hexact, hexact.negatedBeyond _ _ (by decide +kernel) hnumeral (Nat.le_refl _)⟩

/-- Dollar signs may stand anywhere, and both signs of a hexadecimal number count. -/
example : value ['-', '1', '$', 'f'] = -31 ∧ value ['-', '-', '1', '$', 'F'] = 31 ∧
    value ['-', '-', '3', '1'] = 0 := by decide +kernel

end AsmCatalog.Literal
