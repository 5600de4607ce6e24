/-
The bytes of a text are decoded to it.

A character takes up to four bytes.  The first one tells how many there are and holds the bits
of the highest value, and each of the others holds six further bits.  The range that the first
byte leaves for the second one shuts out no character.

Main statements:
* `Utf8.decodeAfter_further` — a further byte of a character is read;
* `Utf8.decodeAfter_encodeChar` — the bytes of a character are decoded to it;
* `Utf8.decode_encode` — the bytes of a text are decoded to it;
* `lineText_of_encode` — so a line that holds them has this text.
-/
import AsmCatalog.Cursor

namespace AsmCatalog.Utf8

variable {p : Pending} {x y : Nat} {rest : Bytes}

theorem toNat_ofNat (h : x < 256) : (UInt8.ofNat x).toNat = x := UInt8.toNat_ofNat_of_lt' h

/-! ### First bytes -/

theorem lead_one (hx : x < 128) : lead (UInt8.ofNat x) = .finished (Char.ofNat x) := by
  rw [lead, toNat_ofNat (by omega)]
  exact if_pos hx

theorem lead_two (hx : 2 ≤ x) (hx' : x < 32) :
    lead (UInt8.ofNat (x + 192)) = .started ⟨x, 1, 0x80, 0xBF⟩ := by
  have hone : ¬ x + 192 < 0x80 := by omega
  have hshort : ¬ x + 192 < 0xC2 := by omega
  have htwo : x + 192 < 0xE0 := by omega
  rw [lead, toNat_ofNat (by omega)]
  simp only [if_neg hone, if_neg hshort, if_pos htwo, Nat.add_sub_cancel]

/-- The first of three bytes leaves a range to the second that has the six bits `y`, unless the
value would be short or a surrogate. -/
theorem lead_three (hx : x < 16) : ∃ low high,
    lead (UInt8.ofNat (x + 224)) = .started ⟨x, 2, low, high⟩ ∧
      ∀ y < 64, (x = 0 → 32 ≤ y) → (x = 13 → y < 32) →
        low.toNat ≤ y + 128 ∧ y + 128 ≤ high.toNat := by
  have hmany : ¬ x + 224 < 0x80 ∧ ¬ x + 224 < 0xC2 ∧ ¬ x + 224 < 0xE0 := by omega
  have hthree : x + 224 < 0xF0 := by omega
  rw [lead, toNat_ofNat (by omega)]
  simp only [if_neg hmany.1, if_neg hmany.2.1, if_neg hmany.2.2, if_pos hthree,
    Nat.add_sub_cancel]
  by_cases hleast : x = 0
  · -- A smaller second byte would spell a value that two bytes hold.
    subst hleast
    refine ⟨0xA0, 0xBF, rfl, fun y hy hshort _ => ?_⟩
    have hlow := hshort rfl
    show 160 ≤ y + 128 ∧ y + 128 ≤ 191
    omega
  · rw [if_neg (show ¬ x + 224 = 0xE0 by omega)]
    by_cases hsurrogate : x = 13
    · -- A larger second byte would spell a surrogate.
      subst hsurrogate
      refine ⟨0x80, 0x9F, rfl, fun y hy _ hlarge => ?_⟩
      have hhigh := hlarge rfl
      show 128 ≤ y + 128 ∧ y + 128 ≤ 159
      omega
    · rw [if_neg (show ¬ x + 224 = 0xED by omega)]
      refine ⟨0x80, 0xBF, rfl, fun y hy _ _ => ?_⟩
      show 128 ≤ y + 128 ∧ y + 128 ≤ 191
      omega

/-- The first of four bytes leaves a range to the second that has the six bits `y`, unless the
value would be short or above U+10FFFF. -/
theorem lead_four (hx : x < 5) : ∃ low high,
    lead (UInt8.ofNat (x + 240)) = .started ⟨x, 3, low, high⟩ ∧
      ∀ y < 64, (x = 0 → 16 ≤ y) → (x = 4 → y < 16) →
        low.toNat ≤ y + 128 ∧ y + 128 ≤ high.toNat := by
  have hmany : ¬ x + 240 < 0x80 ∧ ¬ x + 240 < 0xC2 ∧ ¬ x + 240 < 0xE0 ∧ ¬ x + 240 < 0xF0 := by
    omega
  have hthree : ¬ x + 240 = 0xE0 ∧ ¬ x + 240 = 0xED := by omega
  rw [lead, toNat_ofNat (by omega)]
  simp only [if_neg hmany.1, if_neg hmany.2.1, if_neg hmany.2.2.1, if_neg hmany.2.2.2,
    if_neg hthree.1, if_neg hthree.2, Nat.add_sub_cancel]
  by_cases hleast : x = 0
  · -- A smaller second byte would spell a value that three bytes hold.
    subst hleast
    refine ⟨0x90, 0xBF, rfl, fun y hy hshort _ => ?_⟩
    have hlow := hshort rfl
    show 144 ≤ y + 128 ∧ y + 128 ≤ 191
    omega
  · rw [if_neg (show ¬ x + 240 = 0xF0 by omega)]
    by_cases hgreatest : x = 4
    · -- A larger second byte would spell a value above U+10FFFF.
      subst hgreatest
      refine ⟨0x80, 0x8F, rfl, fun y hy _ hlarge => ?_⟩
      have hhigh := hlarge rfl
      show 128 ≤ y + 128 ∧ y + 128 ≤ 143
      omega
    · rw [if_pos (show x + 240 < 0xF4 by omega)]
      refine ⟨0x80, 0xBF, rfl, fun y hy _ _ => ?_⟩
      show 128 ≤ y + 128 ∧ y + 128 ≤ 191
      omega

/-! ### Further bytes -/

/-- A further byte in the range that is left for it adds its six bits. -/
theorem decodeAfter_further (hx : x < 64) (hlow : p.low.toNat ≤ x + 128)
    (hhigh : x + 128 ≤ p.high.toNat) (rest : Bytes) :
    decodeAfter (some p) (UInt8.ofNat (x + 128) :: rest) =
      if p.missing ≤ 1 then Char.ofNat (p.bits * 64 + x) :: decodeAfter none rest
      else decodeAfter (some ⟨p.bits * 64 + x, p.missing - 1, 0x80, 0xBF⟩) rest := by
  have hbyte : (UInt8.ofNat (x + 128)).toNat = x + 128 := toNat_ofNat (by omega)
  have haccepts : p.accepts (UInt8.ofNat (x + 128)) = true := by
    rw [Pending.accepts, Bool.and_eq_true, decide_eq_true_eq, decide_eq_true_eq,
      UInt8.le_iff_toNat_le, UInt8.le_iff_toNat_le, hbyte]
    exact ⟨hlow, hhigh⟩
  have hextended : p.extended (UInt8.ofNat (x + 128)) = p.bits * 64 + x := by
    show p.bits * 64 + ((UInt8.ofNat (x + 128)).toNat - 0x80) = p.bits * 64 + x
    rw [hbyte, Nat.add_sub_cancel]
  rw [decodeAfter, if_pos haccepts, hextended]

/-- A further byte that is not the second one has any six bits. -/
theorem decodeAfter_tail {bits missing : Nat} (hx : x < 64) (rest : Bytes) :
    decodeAfter (some ⟨bits, missing, 0x80, 0xBF⟩) (UInt8.ofNat (x + 128) :: rest) =
      if missing ≤ 1 then Char.ofNat (bits * 64 + x) :: decodeAfter none rest
      else decodeAfter (some ⟨bits * 64 + x, missing - 1, 0x80, 0xBF⟩) rest := by
  have hlow : (0x80 : UInt8).toNat ≤ x + 128 := Nat.le_add_left 128 x
  have hhigh : x + 128 ≤ (0xBF : UInt8).toNat := by
    show x + 128 ≤ 191
    omega
  exact decodeAfter_further hx hlow hhigh rest

/-! ### Characters -/

/-- The bytes of a character are decoded to it, whatever comes behind them. -/
theorem decodeAfter_encodeChar (c : Char) (rest : Bytes) :
    decodeAfter none (String.utf8EncodeChar c ++ rest) = c :: decodeAfter none rest := by
  have hvalid : c.toNat < 0xD800 ∨ 0xDFFF < c.toNat ∧ c.toNat < 0x110000 := c.valid
  have hself : Char.ofNat c.toNat = c := Char.ofNat_toNat c
  rw [String.utf8EncodeChar]
  -- Which bytes there are depends on the value alone, so the cases are on its size.
  generalize hv : c.val.toNat = v
  have hvalue : c.toNat = v := hv
  rw [hvalue] at hvalid hself
  by_cases hone : v ≤ 127
  · simp only [if_pos hone, List.singleton_append]
    rw [decodeAfter, lead_one (Nat.lt_succ_of_le hone)]
    simp only [hself]
  · by_cases htwo : v ≤ 2047
    · have hbits : v / 64 % 32 = v / 64 := by omega
      have hsum : v / 64 * 64 + v % 64 = v := by omega
      simp only [if_neg hone, if_pos htwo, List.cons_append, List.nil_append]
      rw [hbits, decodeAfter, lead_two (by omega) (by omega)]
      show decodeAfter (some ⟨v / 64, 1, 0x80, 0xBF⟩) _ = _
      rw [decodeAfter_tail (Nat.mod_lt _ (by decide)), if_pos (Nat.le_refl 1), hsum, hself]
    · by_cases hthree : v ≤ 65535
      · have hbits : v / 4096 % 16 = v / 4096 := by omega
        have hsum : (v / 4096 * 64 + v / 64 % 64) * 64 + v % 64 = v := by omega
        obtain ⟨low, high, hlead, hrange⟩ := lead_three (show v / 4096 < 16 by omega)
        obtain ⟨hlow, hhigh⟩ := hrange (v / 64 % 64) (by omega) (by omega) (by omega)
        simp only [if_neg hone, if_neg htwo, if_pos hthree, List.cons_append, List.nil_append]
        rw [hbits, decodeAfter, hlead]
        show decodeAfter (some ⟨v / 4096, 2, low, high⟩) _ = _
        rw [decodeAfter_further (Nat.mod_lt _ (by decide)) hlow hhigh, if_neg (by simp),
          decodeAfter_tail (Nat.mod_lt _ (by decide)), if_pos (by simp), hsum, hself]
      · have hbits : v / 262144 % 8 = v / 262144 := by omega
        have hsum : ((v / 262144 * 64 + v / 4096 % 64) * 64 + v / 64 % 64) * 64 + v % 64 = v := by
          omega
        obtain ⟨low, high, hlead, hrange⟩ := lead_four (show v / 262144 < 5 by omega)
        obtain ⟨hlow, hhigh⟩ := hrange (v / 4096 % 64) (by omega) (by omega) (by omega)
        simp only [if_neg hone, if_neg htwo, if_neg hthree, List.cons_append, List.nil_append]
        rw [hbits, decodeAfter, hlead]
        show decodeAfter (some ⟨v / 262144, 3, low, high⟩) _ = _
        rw [decodeAfter_further (Nat.mod_lt _ (by decide)) hlow hhigh, if_neg (by simp),
          decodeAfter_tail (Nat.mod_lt _ (by decide)), if_neg (by simp),
          decodeAfter_tail (Nat.mod_lt _ (by decide)), if_pos (by simp), hsum, hself]

/-- The bytes of a text are decoded to it. -/
theorem decode_encode (text : Text) : decode (encode text) = text := by
  rw [decode]
  induction text with
  | nil => rfl
  | cons c text ih => rw [encode_cons, decodeAfter_encodeChar, ih]

end AsmCatalog.Utf8

namespace AsmCatalog

/-- A line that holds the bytes of a text has this text, with spaces for its tabs. -/
theorem lineText_of_encode {text : Text} {line : Bytes} (hmark : text.head? ≠ some '\uFEFF')
    (hline : withoutTerminator line = Utf8.encode text) (position : Nat) :
    lineText position line = Text.expandTabs text := by
  rw [lineText, hline, Utf8.decode_encode, withoutMark_of_head?_ne hmark, ite_self]

end AsmCatalog
