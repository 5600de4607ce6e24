/-
Which characters make up a literal, and what a `-` in front of one does.

A literal is signs, digits and dollar signs, so that white space inside a text leaves nothing
to read.  A `-` in front of a text negates what the text reads as, unless the text has a sign
of its own, or is the one number that only its negative is in range of.

Main definitions:
* `Literal.Unsigned` — a text begins with no sign;
* `Literal.Negates` — a text reads as the negated number where a `-` is put in front of it.

Main statements:
* `Literal.value_of_decimal?` — a decimal literal has its number as value;
* `Literal.value_eq_zero_of_white` — a text with white space inside reads as zero;
* `Literal.value_neg_iff` — when a `-` in front of a text negates its value.
-/
import AsmCatalog.Literal
import AsmCatalog.Proofs.SpacedText

namespace AsmCatalog.Literal

open Unicode (isWhiteSpace)
open Text

variable {base : Nat} {text : Text} {c : Char}

/-! ### The characters of a literal -/

theorem digit?_range {n : Nat} (h : digit? base c = some n) :
    ('0'.toNat ≤ c.toNat ∧ c.toNat ≤ '9'.toNat) ∨ ('a'.toNat ≤ c.toNat ∧ c.toNat ≤ 'f'.toNat) ∨
      ('A'.toNat ≤ c.toNat ∧ c.toNat ≤ 'F'.toNat) := by
  rw [digit?] at h
  have hsome := (Option.filter_eq_some_iff.mp h).1
  split at hsome
  · rename_i hin
    exact .inl hin
  · split at hsome
    · rename_i hin
      exact .inr (.inl hin)
    · split at hsome
      · rename_i hin
        exact .inr (.inr hin)
      · exact absurd hsome (by simp)

/-- Digits are none of the other characters that a literal may have, and no white space. -/
theorem digit?_eq_none (h : isWhiteSpace c = true ∨ c ∈ ['-', '+', '$']) :
    digit? base c = none := by
  cases hdigit : digit? base c with
  | none => rfl
  | some n =>
    have hrange := digit?_range hdigit
    have hsmall : c.toNat < 0x80 := by
      rcases hrange with h | h | h <;> exact Nat.lt_of_le_of_lt h.2 (by decide)
    have hall : ∀ k < 0x80, isWhiteSpace (Char.ofNat k) = true ∨ Char.ofNat k ∈ ['-', '+', '$'] →
        ¬ (('0'.toNat ≤ k ∧ k ≤ '9'.toNat) ∨ ('a'.toNat ≤ k ∧ k ≤ 'f'.toNat) ∨
          ('A'.toNat ≤ k ∧ k ≤ 'F'.toNat)) := by decide +kernel
    exact absurd hrange (hall c.toNat hsmall (by simpa using h))

theorem ofDigitsAfter?_eq_none (hc : c ∈ text) (hnone : digit? base c = none) (high : Nat) :
    ofDigitsAfter? base high text = none := by
  induction text generalizing high with
  | nil => exact absurd hc List.not_mem_nil
  | cons d rest ih =>
    rw [ofDigitsAfter?]
    rcases List.mem_cons.mp hc with rfl | hc
    · rw [hnone]
      rfl
    · cases digit? base d with
      | none => rfl
      | some n => exact ih hc _

theorem ofDigits?_eq_none (hc : c ∈ text) (hnone : digit? base c = none) :
    ofDigits? base text = none := by
  rw [ofDigits?, if_neg (by simpa using List.ne_nil_of_mem hc), ofDigitsAfter?_eq_none hc hnone]

/-- A number has no other characters than signs and digits. -/
theorem unbounded?_eq_none (hc : c ∈ text) (hnone : digit? base c = none)
    (hminus : c ≠ '-') (hplus : c ≠ '+') : unbounded? base text = none := by
  rw [unbounded?.eq_def]
  split
  · rw [ofDigits?_eq_none ((List.mem_cons.mp hc).resolve_left hminus) hnone]
    rfl
  · rw [ofDigits?_eq_none ((List.mem_cons.mp hc).resolve_left hplus) hnone]
    rfl
  · rw [ofDigits?_eq_none hc hnone]
    rfl

theorem ofSigned?_eq_none (hc : c ∈ text) (hnone : digit? base c = none)
    (hminus : c ≠ '-') (hplus : c ≠ '+') : ofSigned? base text = none := by
  rw [ofSigned?, unbounded?_eq_none hc hnone hminus hplus]
  rfl

theorem ofSigned?_eq_none_of_white (hc : c ∈ text) (hwhite : isWhiteSpace c = true) :
    ofSigned? base text = none := by
  refine ofSigned?_eq_none hc (digit?_eq_none (.inl hwhite)) ?_ ?_
  · rintro rfl
    exact absurd hwhite (by decide)
  · rintro rfl
    exact absurd hwhite (by decide)

/-! ### The value of a text -/

/-- White space around a text makes no difference to its value. -/
theorem value_congr {other : Text} (h : trim text = trim other) : value text = value other := by
  rw [value, value, h]

theorem value_of_no_dollar (h : '$' ∉ trim text) :
    value text = (ofSigned? 10 (trim text)).getD 0 := if_neg h

theorem value_of_dollar (h : '$' ∈ trim text) : value text = hex (trim text) := if_pos h

theorem value_of_minus {digits : Text} (hdollar : '$' ∈ trim text)
    (h : (trim text).filter (· ≠ '$') = '-' :: digits) :
    value text = negate ((ofSigned? 16 digits).getD 0) := by
  rw [value_of_dollar hdollar, hex, trim_trim, h]
  rfl

theorem value_of_no_minus (hdollar : '$' ∈ trim text)
    (h : ((trim text).filter (· ≠ '$')).head? ≠ some '-') :
    value text = (ofSigned? 16 ((trim text).filter (· ≠ '$'))).getD 0 := by
  rw [value_of_dollar hdollar, hex, trim_trim]
  split
  · rename_i digits hdigits
    exact absurd (by rw [hdigits]; rfl) h
  · rfl

/-- A decimal literal has its number as value. -/
theorem value_of_decimal? {n : Int} (h : decimal? text = some n) : value text = n := by
  have hdark : ∀ c ∈ text, isWhiteSpace c = false := by
    intro c hc
    by_contra hwhite
    rw [decimal?, ofSigned?_eq_none_of_white hc (by simpa using hwhite)] at h
    exact absurd h (by simp)
  have hdollar : '$' ∉ text := by
    intro hmem
    rw [decimal?, ofSigned?_eq_none hmem (digit?_eq_none (.inr (by simp))) (by decide)
      (by decide)] at h
    exact absurd h (by simp)
  have htrim : trim text = text := trim_of_dark hdark
  rw [value_of_no_dollar (by rwa [htrim]), htrim, ← decimal?, h]
  rfl

/-- Nothing can be read of a text with white space inside, whichever base it is read in. -/
theorem value_eq_zero_of_white (hc : c ∈ trim text) (hwhite : isWhiteSpace c = true) :
    value text = 0 := by
  by_cases hdollar : '$' ∈ trim text
  · have hkept : c ∈ (trim text).filter (· ≠ '$') := by
      refine List.mem_filter.mpr ⟨hc, decide_eq_true ?_⟩
      rintro rfl
      exact absurd hwhite (by decide)
    by_cases hminus : ((trim text).filter (· ≠ '$')).head? = some '-'
    · obtain ⟨digits, hcons⟩ := List.head?_eq_some_iff.mp hminus
      have hmem : c ∈ digits := by
        refine (List.mem_cons.mp (hcons ▸ hkept)).resolve_left ?_
        rintro rfl
        exact absurd hwhite (by decide)
      rw [value_of_minus hdollar hcons, ofSigned?_eq_none_of_white hmem hwhite,
        Option.getD_none, negate_zero]
    · rw [value_of_no_minus hdollar hminus, ofSigned?_eq_none_of_white hkept hwhite]
      rfl
  · rw [value_of_no_dollar hdollar, ofSigned?_eq_none_of_white hc hwhite]
    rfl

/-! ### A sign in front of a text -/

/-- A text begins with no sign. -/
def Unsigned (text : Text) : Prop := ∀ c ∈ text.head?, c ≠ '-' ∧ c ≠ '+'

instance (text : Text) : Decidable (Unsigned text) := Option.decidableForallMem text.head?

/-- The number that lies outside the range although its negative lies inside. -/
def beyond : Nat := 9223372036854775808

/-- The digits of a base are read as the negated number where a `-` is put in front of them:
they have no sign, and are not the number that is just out of range; or they have a sign, and
read as zero. -/
def DigitsNegate (base : Nat) (text : Text) : Prop :=
  if Unsigned text then ofDigits? base text ≠ some beyond
  else (ofSigned? base text).getD 0 = 0

instance (base : Nat) (text : Text) : Decidable (DigitsNegate base text) := by
  rw [DigitsNegate]
  infer_instance

theorem unbounded?_of_unsigned (h : Unsigned text) :
    unbounded? base text = (ofDigits? base text).map Int.ofNat := by
  rw [unbounded?.eq_def]
  split
  · exact absurd rfl (h '-' rfl).1
  · exact absurd rfl (h '+' rfl).2
  · rfl

theorem unbounded?_minus (text : Text) :
    unbounded? base ('-' :: text) = (ofDigits? base text).map fun n : Nat => -(n : Int) := by
  rw [unbounded?]
  cases ofDigits? base text <;> rfl

theorem ofSigned?_minus_of_signed (h : ¬ Unsigned text) : ofSigned? base ('-' :: text) = none := by
  obtain ⟨c, hc, hsign⟩ : ∃ c ∈ text.head?, c = '-' ∨ c = '+' := by
    rw [Unsigned] at h
    push Not at h
    obtain ⟨c, hc, hsign⟩ := h
    exact ⟨c, hc, or_iff_not_imp_left.mpr hsign⟩
  have hnone : digit? base c = none := digit?_eq_none (.inr (by
    rcases hsign with rfl | rfl <;> simp))
  rw [ofSigned?, unbounded?_minus, ofDigits?_eq_none (List.mem_of_head? hc) hnone]
  rfl

/-- A number out of range reads as zero. -/
theorem getD_filter_range (v : Int) :
    ((some v).filter fun v => least ≤ v ∧ v ≤ greatest).getD 0 =
      if least ≤ v ∧ v ≤ greatest then v else 0 := by
  rw [Option.filter_some]
  by_cases h : least ≤ v ∧ v ≤ greatest
  · rw [if_pos (decide_eq_true h), if_pos h, Option.getD_some]
  · rw [if_neg (by simpa using h), if_neg h, Option.getD_none]

theorem ofSigned?_minus_iff : (ofSigned? base ('-' :: text)).getD 0 =
    -(ofSigned? base text).getD 0 ↔ DigitsNegate base text := by
  rw [DigitsNegate]
  split
  · rename_i hunsigned
    rw [ofSigned?, ofSigned?, unbounded?_minus, unbounded?_of_unsigned hunsigned]
    cases ofDigits? base text with
    | none => simp
    | some n =>
      rw [Option.map_some, Option.map_some, getD_filter_range, getD_filter_range, ne_eq,
        Option.some.injEq, Int.ofNat_eq_natCast, beyond, least, greatest]
      split <;> split <;> omega
  · rename_i hsigned
    rw [ofSigned?_minus_of_signed hsigned, Option.getD_none, eq_comm, Int.neg_eq_zero]

/-- A text reads as the negated number where a `-` is put in front of it.  A hexadecimal text
may have a `-` already. -/
def Negates (text : Text) : Prop :=
  if '$' ∈ trim text then
    match (trim text).filter (· ≠ '$') with
    | '-' :: digits => DigitsNegate 16 digits
    | _ => True
  else DigitsNegate 10 (trim text)

instance (text : Text) : Decidable (Negates text) := by
  rw [Negates]
  split
  · split <;> infer_instance
  · infer_instance

/-- Two values in range have opposite negatives just where they are opposite. -/
theorem negate_eq_neg_negate_iff {v w : Int} (hv : least ≤ v ∧ v ≤ greatest)
    (hw : least ≤ w ∧ w ≤ greatest) : negate v = -negate w ↔ v = -w := by
  rw [negate, negate]
  rw [least, greatest] at *
  split <;> split <;> omega

/-- What has no `-` in front does not read as a negative number. -/
theorem ofSigned?_nonneg (base : Nat) (h : text.head? ≠ some '-') :
    0 ≤ (ofSigned? base text).getD 0 := by
  cases hread : ofSigned? base text with
  | none => exact Int.le_refl 0
  | some v =>
    have hunbounded := (Option.filter_eq_some_iff.mp hread).1
    rw [unbounded?.eq_def] at hunbounded
    split at hunbounded
    · exact absurd rfl h
    · obtain ⟨n, -, rfl⟩ := Option.map_eq_some_iff.mp hunbounded
      exact Int.natCast_nonneg n
    · obtain ⟨n, -, rfl⟩ := Option.map_eq_some_iff.mp hunbounded
      exact Int.natCast_nonneg n

/-- A `-` in front of a text negates its value exactly where `Negates` says so. -/
theorem value_neg_iff (h : BeginsDark text) :
    value ('-' :: text) = -value text ↔ Negates text := by
  have htrim : trim ('-' :: text) = '-' :: trim text := trim_cons (by decide) h
  rw [Negates]
  by_cases hdollar : '$' ∈ trim text
  · have hboth : '$' ∈ trim ('-' :: text) := htrim ▸ List.mem_cons_of_mem _ hdollar
    -- The `-` in front is the one that negates, so that what was the first is read with the rest.
    have hminus : (trim ('-' :: text)).filter (· ≠ '$') =
        '-' :: (trim text).filter (· ≠ '$') := by
      rw [htrim, List.filter_cons_of_pos (by decide)]
    rw [if_pos hdollar, value_of_minus hboth hminus]
    split
    · rename_i digits hdigits
      rw [value_of_minus hdollar hdigits, hdigits, ← ofSigned?_minus_iff]
      exact negate_eq_neg_negate_iff (getD_ofSigned?_range 16 _) (getD_ofSigned?_range 16 _)
    · rename_i hnone
      have hhead : ((trim text).filter (· ≠ '$')).head? ≠ some '-' := by
        intro h
        obtain ⟨digits, hdigits⟩ := List.head?_eq_some_iff.mp h
        exact hnone digits hdigits
      -- What has no `-` is not the least value, so that its negative is exact.
      have hnonneg := ofSigned?_nonneg 16 hhead
      refine iff_of_true ?_ True.intro
      rw [value_of_no_minus hdollar hhead, negate_of_ne (by rw [least]; omega)]
  · have hneither : '$' ∉ trim ('-' :: text) := by simpa [htrim] using hdollar
    rw [if_neg hdollar, value_of_no_dollar hdollar, value_of_no_dollar hneither, htrim,
      ofSigned?_minus_iff]

/-- A text that has a sign already and no dollar sign reads as zero behind a `-`. -/
theorem value_minus_of_signed (h : BeginsDark text)
    (hsigned : ¬ Unsigned text) (hdollar : '$' ∉ trim text) : value ('-' :: text) = 0 := by
  have htrim : trim ('-' :: text) = '-' :: trim text := trim_cons (by decide) h
  have hneither : '$' ∉ trim ('-' :: text) := by simpa [htrim] using hdollar
  have hsame : ¬ Unsigned (trim text) := by
    rw [Unsigned, trim, trimStart_of_beginsDark h]
    cases text with
    | nil => exact hsigned
    | cons c rest =>
      rw [trimEnd_cons (h c rfl)]
      exact hsigned
  rw [value_of_no_dollar hneither, htrim, ofSigned?_minus_of_signed hsame]
  rfl

end AsmCatalog.Literal
