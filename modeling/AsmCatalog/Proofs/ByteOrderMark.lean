/-
The byte order mark is hidden nowhere but at the start of a source.

A line at offset zero is decoded without the mark.  So bytes that stand elsewhere in one
source and at the start of another decode to the same text exactly as long as they do
not begin with the mark, of which only one sequence of bytes can be the form.

Main definition:
* `byteOrderMark` — the bytes of the mark.

Main statements:
* `Utf8.byteOrderMark_prefix_of_decode` — only these bytes decode to the mark;
* `lineText_add` — a line without the mark decodes to the same text wherever it stands.
-/
import AsmCatalog.Proofs.HeaderKeyword
import AsmCatalog.Proofs.PhysicalLine
import Mathlib.Tactic.SplitIfs

namespace AsmCatalog

/-- The bytes of the byte order mark. -/
def byteOrderMark : Bytes := [0xEF, 0xBB, 0xBF]

namespace Utf8

variable {bits : Nat} {low high : UInt8} {bytes : Bytes} {rest : Text}

/-- What an unfinished character that becomes the mark needs next. -/
theorem exists_cons_of_decodeAfter {p : Pending}
    (h : decodeAfter (some p) bytes = '\uFEFF' :: rest) :
    ∃ b later, bytes = b :: later ∧ p.low.toNat ≤ b.toNat ∧ b.toNat ≤ p.high.toNat ∧
      (p.missing ≤ 1 → p.extended b = 0xFEFF) ∧
      (1 < p.missing →
        decodeAfter (some ⟨p.extended b, p.missing - 1, 0x80, 0xBF⟩) later = '\uFEFF' :: rest) := by
  cases bytes with
  | nil =>
    rw [decodeAfter] at h
    exact absurd (List.cons.inj h).1 (by decide)
  | cons b later =>
    rw [decodeAfter] at h
    split at h
    · rename_i haccepts
      rw [Pending.accepts, Bool.and_eq_true, decide_eq_true_iff, decide_eq_true_iff] at haccepts
      refine ⟨b, later, rfl, UInt8.le_iff_toNat_le.mp haccepts.1,
        UInt8.le_iff_toNat_le.mp haccepts.2, fun hlast => ?_, fun hmore => ?_⟩
      · rw [if_pos hlast] at h
        exact Unicode.eq_toNat_of_ofNat_eq (by decide) (List.cons.inj h).1
      · rwa [if_neg (Nat.not_le_of_lt hmore)] at h
    · -- Bytes that do not fit begin with the replacement.
      split at h
      · exact absurd (List.cons.inj h).1 (by decide)
      · exact absurd (List.cons.inj h).1 (by decide)

theorem bits_of_one_missing (h : decodeAfter (some ⟨bits, 1, low, high⟩) bytes = '\uFEFF' :: rest)
    (hhigh : high.toNat ≤ 0xBF) :
    bits = 0x3FB ∧ [0xBF] <+: bytes := by
  obtain ⟨b, later, rfl, hle, hle', hvalue, -⟩ := exists_cons_of_decodeAfter h
  have hvalue : bits * 64 + (b.toNat - 0x80) = 0xFEFF := hvalue (Nat.le_refl _)
  dsimp only at hle hle'
  obtain rfl : b = 0xBF := UInt8.toNat_inj.mp (by simp; omega)
  exact ⟨by omega, ⟨later, rfl⟩⟩

theorem bits_of_two_missing (h : decodeAfter (some ⟨bits, 2, low, high⟩) bytes = '\uFEFF' :: rest)
    (hhigh : high.toNat ≤ 0xBF) :
    bits = 0xF ∧ [0xBB, 0xBF] <+: bytes := by
  obtain ⟨b, later, rfl, hle, hle', -, hnext⟩ := exists_cons_of_decodeAfter h
  obtain ⟨hbits, hlater⟩ := bits_of_one_missing (hnext (show 1 < 2 by decide)) (by decide)
  have hvalue : bits * 64 + (b.toNat - 0x80) = 0x3FB := hbits
  dsimp only at hle hle'
  obtain rfl : b = 0xBB := UInt8.toNat_inj.mp (by simp; omega)
  exact ⟨by omega, List.cons_prefix_cons.mpr ⟨rfl, hlater⟩⟩

/-- The mark has no form of four bytes. -/
theorem low_of_three_missing
    (h : decodeAfter (some ⟨bits, 3, low, high⟩) bytes = '\uFEFF' :: rest)
    (hhigh : high.toNat ≤ 0xBF) :
    bits = 0 ∧ low.toNat < 0x90 := by
  obtain ⟨b, later, rfl, hle, hle', -, hnext⟩ := exists_cons_of_decodeAfter h
  obtain ⟨hbits, -⟩ := bits_of_two_missing (hnext (show 1 < 3 by decide)) (by decide)
  have hvalue : bits * 64 + (b.toNat - 0x80) = 0xF := hbits
  dsimp only at hle hle'
  exact ⟨by omega, by omega⟩

/-- Only its own bytes decode to the mark. -/
theorem byteOrderMark_prefix_of_decode (h : decode bytes = '\uFEFF' :: rest) :
    byteOrderMark <+: bytes := by
  cases bytes with
  | nil => exact absurd h (by simp)
  | cons b later =>
    -- Of the first bytes only those of three bytes that are not singled out give its bits.
    rw [decode, decodeAfter, lead] at h
    split_ifs at h with hascii hcontinued htwo hE0 hED hthree hF0 hfour hF4
    · have hvalue : b.toNat = 0xFEFF :=
        Unicode.eq_toNat_of_ofNat_eq (by decide) (List.cons.inj h).1
      omega
    · exact absurd (List.cons.inj h).1 (by decide)
    · have := (bits_of_one_missing h (by decide)).1
      omega
    · exact absurd (bits_of_two_missing h (by decide)).1 (by decide)
    · exact absurd (bits_of_two_missing h (by decide)).1 (by decide)
    · obtain ⟨hbits, hlater⟩ := bits_of_two_missing h (by decide)
      obtain rfl : b = 0xEF := UInt8.toNat_inj.mp (by simp; omega)
      exact List.cons_prefix_cons.mpr ⟨rfl, hlater⟩
    · exact absurd (low_of_three_missing h (by decide)).2 (by decide)
    · have := (low_of_three_missing h (by decide)).1
      omega
    · exact absurd (low_of_three_missing h (by decide)).1 (by decide)
    · exact absurd (List.cons.inj h).1 (by decide)

end Utf8

/-! ### Lines -/

/-- A text that is not decoded from the mark keeps its first character. -/
theorem withoutMark_decode {bytes : Bytes} (h : ¬ byteOrderMark <+: bytes) :
    withoutMark (Utf8.decode bytes) = Utf8.decode bytes := by
  refine withoutMark_of_head?_ne fun hhead => ?_
  obtain ⟨rest, heq⟩ := List.head?_eq_some_iff.mp hhead
  exact h (Utf8.byteOrderMark_prefix_of_decode heq)

/-- A line decodes to the same text wherever it stands, unless it begins with the mark. -/
theorem lineText_eq_of_no_mark {line : Bytes} (h : ¬ byteOrderMark <+: line) (p q : Nat) :
    lineText p line = lineText q line := by
  have hwithout : ¬ byteOrderMark <+: withoutTerminator line :=
    fun hmark => h (hmark.trans (isPrefix_withoutTerminator line))
  simp only [lineText, withoutMark_decode hwithout, ite_self]

/-- Behind the start of a source the mark is a character like any other. -/
theorem lineText_add {p : Nat} (hp : p ≠ 0) (line : Bytes) (k : Nat) :
    lineText (p + k) line = lineText p line := by
  simp only [lineText, if_neg hp, if_neg (show p + k ≠ 0 by omega)]

end AsmCatalog
