/-
The place where the legacy rule cuts a header.

The legacy rule looks for the keyword in the bytes of a header whose letters A to Z are in
lower case, and cuts the header itself at the offset that it has found.  The search by
characters comes to the same place: the keyword is ASCII, so that it stands in the bytes only
where characters begin, and the change of letters moves no byte.

Main definitions:
* `FirstAt` — the offset at which a word stands in some bytes for the first time;
* `MacroHeader.CutAt` — the offset at which the legacy rule cuts a header, and what is behind.

Main statements:
* `Utf8.prefix_encode_iff` — where an ASCII word stands in the bytes of a text;
* `Utf8.exists_boundary` — before an ASCII byte a character ends;
* `MacroHeader.after?_spec` — what the search by characters finds;
* `MacroHeader.exists_cutAt` — a header with parameters is cut at such an offset.
-/
import AsmCatalog.Proofs.HeaderKeyword
import AsmCatalog.Text.Utf8

namespace AsmCatalog

/-! ### Bytes of characters -/

namespace Utf8

theorem toNat_of_ascii {c : Char} (h : c.toNat < 0x80) :
    (UInt8.ofNat c.toNat).toNat = c.toNat :=
  UInt8.toNat_ofNat_of_lt' (Nat.lt_trans h (by decide))

theorem encodeChar_of_ascii {c : Char} (h : c.toNat < 0x80) :
    String.utf8EncodeChar c = [UInt8.ofNat c.toNat] := by
  have hle : c.val.toNat ≤ 127 := Nat.le_of_lt_succ h
  rw [String.utf8EncodeChar]
  exact if_pos hle

/-- The bytes of a character outside ASCII are no ASCII bytes. -/
theorem le_of_mem_encodeChar {c : Char} {b : UInt8} (h : ¬ c.toNat < 0x80)
    (hb : b ∈ String.utf8EncodeChar c) : 0x80 ≤ b.toNat := by
  have hgt : ¬ c.val.toNat ≤ 127 := fun hle => h (Nat.lt_succ_of_le hle)
  have hmod : ∀ n k : Nat, 128 ≤ k → n + k < 256 → 0x80 ≤ (UInt8.ofNat (n + k)).toNat := by
    intro n k hk hn
    rw [UInt8.toNat_ofNat_of_lt' hn]
    omega
  rw [String.utf8EncodeChar] at hb
  simp only [if_neg hgt] at hb
  split at hb
  · rcases List.mem_pair.mp hb with rfl | rfl <;> exact hmod _ _ (by omega) (by omega)
  · split at hb
    · simp only [List.mem_cons, List.not_mem_nil, or_false] at hb
      rcases hb with rfl | rfl | rfl <;> exact hmod _ _ (by omega) (by omega)
    · simp only [List.mem_cons, List.not_mem_nil, or_false] at hb
      rcases hb with rfl | rfl | rfl | rfl <;> exact hmod _ _ (by omega) (by omega)

theorem encodeChar_ne_nil (c : Char) : String.utf8EncodeChar c ≠ [] := by
  rw [String.utf8EncodeChar]
  split
  · simp
  · split
    · simp
    · split <;> simp

/-- An ASCII word stands at the front of the bytes of a text exactly if it stands at the front
of the text. -/
theorem prefix_encode_iff {word text : Text} (hw : ∀ c ∈ word, c.toNat < 0x80) :
    encode word <+: encode text ↔ word <+: text := by
  induction word generalizing text with
  | nil => simp
  | cons w word ih =>
    have hascii : w.toNat < 0x80 := hw w List.mem_cons_self
    have hrest : ∀ c ∈ word, c.toNat < 0x80 := fun c hc => hw c (List.mem_cons_of_mem _ hc)
    rw [encode_cons, encodeChar_of_ascii hascii, List.singleton_append]
    cases text with
    | nil => simp
    | cons c text =>
      rw [encode_cons, List.cons_prefix_cons]
      by_cases hc : c.toNat < 0x80
      · rw [encodeChar_of_ascii hc, List.singleton_append, List.cons_prefix_cons, ih hrest]
        have hsame : UInt8.ofNat w.toNat = UInt8.ofNat c.toNat ↔ w = c := by
          constructor
          · intro h
            have hnat := congrArg UInt8.toNat h
            rw [toNat_of_ascii hascii, toNat_of_ascii hc] at hnat
            exact Char.toNat_inj.mp hnat
          · rintro rfl
            rfl
        rw [hsame]
      · -- The first byte of `c` is none of an ASCII character.
        constructor
        · intro h
          obtain ⟨b, more, hbytes⟩ := List.exists_cons_of_ne_nil (encodeChar_ne_nil c)
          have hlarge := le_of_mem_encodeChar hc (hbytes ▸ List.mem_cons_self)
          rw [hbytes, List.cons_append, List.cons_prefix_cons] at h
          rw [← h.1, toNat_of_ascii hascii] at hlarge
          omega
        · rintro ⟨rfl, -⟩
          exact absurd hascii hc

/-- Where an ASCII byte stands in the bytes of a text, a character begins. -/
theorem exists_boundary {text : Text} {n : Nat} {b : UInt8} {rest : Bytes}
    (h : (encode text).drop n = b :: rest) (hb : b.toNat < 0x80) :
    ∃ front behind, text = front ++ behind ∧ (encode front).length = n := by
  induction text generalizing n with
  | nil => simp at h
  | cons c text ih =>
    rw [encode_cons, List.drop_append] at h
    by_cases hn : (String.utf8EncodeChar c).length ≤ n
    · rw [List.drop_eq_nil_of_le hn, List.nil_append] at h
      obtain ⟨front, behind, rfl, hlength⟩ := ih h
      refine ⟨c :: front, behind, rfl, ?_⟩
      rw [encode_cons, List.length_append, hlength]
      omega
    · -- The byte is one of `c`, which is ASCII, so it is its only one.
      have hne : (String.utf8EncodeChar c).drop n ≠ [] := by
        rw [Ne, List.drop_eq_nil_iff]
        exact hn
      obtain ⟨b', more, hdrop⟩ := List.exists_cons_of_ne_nil hne
      rw [hdrop, List.cons_append] at h
      obtain ⟨rfl, -⟩ := List.cons.inj h
      have hmem : b' ∈ String.utf8EncodeChar c :=
        (List.drop_subset n _) (hdrop ▸ List.mem_cons_self)
      have hascii : c.toNat < 0x80 := by
        by_contra hc
        exact absurd (le_of_mem_encodeChar hc hmem) (Nat.not_le_of_lt hb)
      rw [encodeChar_of_ascii hascii, List.length_singleton] at hn
      exact ⟨[], c :: text, rfl, by rw [encode_nil, List.length_nil]; omega⟩

/-- No byte is moved when letters A to Z are changed to lower case. -/
theorem length_encode_lowerLetters (text : Text) :
    (encode (Text.lowerLetters text)).length = (encode text).length := by
  induction text with
  | nil => rfl
  | cons c text ih =>
    have hchar : (String.utf8EncodeChar c.toLower).length = (String.utf8EncodeChar c).length := by
      by_cases hc : c.toNat < 0x80
      · have hlower : c.toLower.toNat < 0x80 := by
          have all : ∀ n < 0x80, (Char.ofNat n).toLower.toNat < 0x80 := by decide +kernel
          simpa using all c.toNat hc
        rw [encodeChar_of_ascii hc, encodeChar_of_ascii hlower]
        rfl
      · rw [Unicode.toLower_of_not_ascii hc]
    have hcons : Text.lowerLetters (c :: text) = c.toLower :: Text.lowerLetters text := rfl
    rw [hcons, encode_cons, encode_cons, List.length_append, List.length_append, hchar, ih]

end Utf8

/-! ### The first place of a word -/

/-- The word stands in the bytes at the offset `n`, and nowhere before. -/
def FirstAt (word bytes : Bytes) (n : Nat) : Prop :=
  word <+: bytes.drop n ∧ ∀ m < n, ¬ word <+: bytes.drop m

/-- A place in the characters is a place in the bytes. -/
theorem firstAt_encode {word front behind : Text} (hw : ∀ c ∈ word, c.toNat < 0x80)
    (hne : word ≠ []) (hword : word <+: behind)
    (hfirst : ∀ m < front.length, ¬ word <+: (front ++ behind).drop m) :
    FirstAt (Utf8.encode word) (Utf8.encode (front ++ behind)) (Utf8.encode front).length := by
  constructor
  · rw [Utf8.encode_append, List.drop_left]
    exact (Utf8.prefix_encode_iff hw).mpr hword
  · intro m hm hbefore
    obtain ⟨w, more, rfl⟩ := List.exists_cons_of_ne_nil hne
    have hascii : w.toNat < 0x80 := hw w List.mem_cons_self
    -- A character begins where the first byte of the word stands, and there is the word.
    obtain ⟨rest, hrest⟩ := hbefore
    rw [Utf8.encode_cons, Utf8.encodeChar_of_ascii hascii] at hrest
    have hbyte : (UInt8.ofNat w.toNat).toNat < 0x80 := by
      rw [Utf8.toNat_of_ascii hascii]
      exact hascii
    obtain ⟨front', behind', hsplit, hlength⟩ := Utf8.exists_boundary hrest.symm hbyte
    have hword' : w :: more <+: behind' := by
      rw [← Utf8.prefix_encode_iff hw]
      rw [hsplit, Utf8.encode_append, ← hlength, List.drop_left] at hrest
      exact ⟨rest, by rw [Utf8.encode_cons, Utf8.encodeChar_of_ascii hascii, hrest]⟩
    have hshort : front'.length < front.length := by
      by_contra hle
      have hprefix : front <+: front' := by
        have hwhole : front' <+: front ++ behind := ⟨behind', hsplit.symm⟩
        exact List.prefix_of_prefix_length_le (List.prefix_append ..) hwhole (Nat.le_of_not_lt hle)
      obtain ⟨between, rfl⟩ := hprefix
      rw [Utf8.encode_append, List.length_append] at hlength
      omega
    refine hfirst front'.length hshort ?_
    rw [hsplit, List.drop_left]
    exact hword'

namespace MacroHeader

/-- The search by characters finds the first place where the word stands in some spelling. -/
theorem after?_spec {word text behind : Text} (hne : word ≠ [])
    (h : after? word text = some behind) :
    ∃ front spelling, text = front ++ (spelling ++ behind) ∧
      Text.lowerLetters spelling = word ∧
      ∀ m < front.length, ¬ word <+: (Text.lowerLetters text).drop m := by
  induction text with
  | nil =>
    rw [after?, if_neg (by simpa using hne)] at h
    exact absurd h (by simp)
  | cons c rest ih =>
    rw [after?] at h
    by_cases hspelled : Text.lowerLetters ((c :: rest).take word.length) = word
    · rw [if_pos hspelled] at h
      refine ⟨[], (c :: rest).take word.length, ?_, hspelled, fun m hm => ?_⟩
      · rw [List.nil_append, ← Option.some.inj h, List.take_append_drop]
      · exact absurd hm (Nat.not_lt_zero m)
    · rw [if_neg hspelled] at h
      obtain ⟨front, spelling, rfl, hword, hfirst⟩ := ih h
      refine ⟨c :: front, spelling, rfl, hword, fun m hm => ?_⟩
      cases m with
      | zero =>
        rw [List.drop_zero, List.prefix_iff_eq_take, Text.lowerLetters, ← List.map_take]
        exact fun hprefix => hspelled hprefix.symm
      | succ m => exact hfirst m (Nat.lt_of_succ_lt_succ hm)

/-- The legacy rule cuts the header at this offset: the keyword and a space stand just before
it, for the first time in the header with its letters A to Z in lower case, and a character of
the header ends there.  What is behind it declares the parameters. -/
structure CutAt (header : Text) (parameters : List Text) (n : Nat) : Prop where
  keyword : FirstAt (Utf8.encode (macroKeyword ++ [' ']))
    (Utf8.encode (Text.lowerLetters header)) n
  cut : ∃ front behind, header = front ++ behind ∧
    (Utf8.encode front).length = n + (Utf8.encode (macroKeyword ++ [' '])).length ∧
    parameters = splitParameters behind

/-- The legacy rule can cut a header that has something behind its keyword. -/
theorem exists_cutAt {line : Text} {header : MacroHeader}
    (h : parse? .legacy (Text.normalize line) = some header)
    (htokens : 2 < (Text.tokens (Text.normalize line)).length) :
    ∃ n, CutAt (Text.normalize line) header.parameters n := by
  rw [parse?] at h
  split at h
  · rename_i name keyword behind hsplit
    rw [hsplit, List.length_cons, List.length_cons] at htokens
    split at h
    · obtain ⟨first, more, rfl⟩ : ∃ first more, behind = first :: more := by
        refine List.exists_cons_of_ne_nil ?_
        rintro rfl
        exact absurd htokens (by simp)
      obtain ⟨text, hafter, rfl⟩ := Option.map_eq_some_iff.mp h
      obtain ⟨front, spelling, hheader, hspelling, hfirst⟩ := after?_spec (by simp) hafter
      have hlower : Text.lowerLetters (Text.normalize line) =
          Text.lowerLetters front ++ ((macroKeyword ++ [' ']) ++ Text.lowerLetters text) := by
        rw [hheader, ← hspelling]
        simp only [Text.lowerLetters, List.map_append]
      have hlength := Utf8.length_encode_lowerLetters front
      refine ⟨(Utf8.encode front).length, ?_, front ++ spelling, text, ?_, ?_, rfl⟩
      · rw [hlower, ← hlength]
        refine firstAt_encode (by simp [macroKeyword]) (by simp) (List.prefix_append ..) ?_
        intro m hm
        rw [Text.length_lowerLetters] at hm
        rw [← hlower]
        exact hfirst m hm
      · rw [hheader, List.append_assoc]
      · rw [Utf8.encode_append, List.length_append, ← Utf8.length_encode_lowerLetters spelling,
          hspelling]
    · exact absurd h (by simp)
  · exact absurd h (by simp)

end MacroHeader

end AsmCatalog
