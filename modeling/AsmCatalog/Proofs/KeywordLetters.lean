/-
Keywords are spelled in the letters A to Z.

A keyword is looked for in the lower case form of a text, by the full mapping.  No character
outside ASCII has `e`, `n`, `d`, `m` or another of their letters in its lower case form, the
Kelvin sign and the dotted capital I apart.  So the search finds a keyword without `i` and `k`
exactly where it stands in the letters A to Z, in either case.

Main definitions:
* `KeywordLetter`, `AsciiOnly` — a character that such a keyword can have, and such a keyword;
* `Unicode.lowercaseBetween` — the lower case form of a part of a text;
* `Text.SpelledAt` — a place where a text spells a word in the letters A to Z.

Main statements:
* `Unicode.lowerChar_ascii` — only an ASCII character has an ASCII character as its lower case
  form, the Kelvin sign apart;
* `Text.lowercaseAfter_eq_iff` — a keyword stands in a lower case form where the text spells it;
* `Text.spells_eq_sameLetters` — which tokens spell a keyword;
* `Text.mentions_iff` — which texts have a keyword somewhere.
-/
import AsmCatalog.Text.Keyword
import Mathlib.Data.List.Basic

namespace AsmCatalog

open Unicode (lowerBetween lowercase lowercaseAfter)

/-! ### Lower case forms in the ASCII range -/

namespace Unicode

/-- The lower case forms of a run lie above the ASCII range and are scalar values, or
the run is the Kelvin sign alone. -/
def CaseRun.leavesAscii (r : CaseRun) : Bool :=
  (r.first == 0x212A && r.last == 0x212A && r.shift == -8383) ||
    (0x80 ≤ r.first + r.shift && (r.last + r.shift < 0xD800 ||
      (0xE000 ≤ r.first + r.shift && r.last + r.shift < 0x110000)))

theorem all_leavesAscii : lowercaseRuns.all CaseRun.leavesAscii = true := by decide +kernel

/-- Inside the ASCII range the mapping is that of the letters A to Z. -/
theorem lowerChar_eq_toLower {c : Char} (h : c.toNat < 0x80) : lowerChar c = c.toLower := by
  have all : ∀ n < 0x80, lowerChar (Char.ofNat n) = (Char.ofNat n).toLower := by decide +kernel
  simpa using all c.toNat h

/-- Only the letters A to Z have another form in lower case. -/
theorem toLower_of_not_ascii {c : Char} (h : ¬ c.toNat < 0x80) : c.toLower = c := by
  have hletter : ¬ (c.val ≥ 'A'.val ∧ c.val ≤ 'Z'.val) := by
    rintro ⟨-, hle⟩
    have hle : c.toNat ≤ 90 := hle
    omega
  exact dif_neg hletter

theorem toNat_ofNat_of_isValidChar {n : Nat} (h : n.isValidChar) : (Char.ofNat n).toNat = n := by
  rw [Char.ofNat, dif_pos h]
  exact UInt32.toNat_ofNatLT ..

/-- Only the zero character comes of numbers that are no characters. -/
theorem eq_toNat_of_ofNat_eq {n : Nat} {c : Char} (hc : c ≠ '\x00') (h : Char.ofNat n = c) :
    n = c.toNat := by
  by_cases hvalid : n.isValidChar
  · rw [← h, toNat_ofNat_of_isValidChar hvalid]
  · rw [Char.ofNat, dif_neg hvalid] at h
    exact absurd h.symm hc

/-- Only an ASCII character has an ASCII character as its lower case form, but for the
Kelvin sign. -/
theorem lowerChar_ascii {c : Char} (h : (lowerChar c).toNat < 0x80) (hk : lowerChar c ≠ 'k') :
    lowerChar c = c.toLower := by
  by_cases hc : c.toNat < 0x80
  · exact lowerChar_eq_toLower hc
  · rw [lowerChar, if_neg hc] at h hk
    cases hr : lowercaseRuns.find? (·.holds c.toNat) with
    | none =>
      rw [hr] at h
      exact absurd h hc
    | some r =>
      rw [hr] at h hk
      have hmem := List.mem_of_find?_eq_some hr
      have hholds := List.find?_some hr
      have hrun := List.all_eq_true.mp all_leavesAscii r hmem
      simp only [CaseRun.holds, Bool.and_eq_true, decide_eq_true_eq] at hholds
      simp only [CaseRun.leavesAscii, Bool.or_eq_true, Bool.and_eq_true, beq_iff_eq,
        decide_eq_true_eq] at hrun
      rcases hrun with ⟨⟨hfirst, hlast⟩, hshift⟩ | ⟨hlow, hhigh⟩
      · -- The one run that leads back into ASCII holds just the Kelvin sign.
        have hn : c.toNat = 0x212A := by omega
        have hk' : Char.ofNat (c.toNat + r.shift).toNat ≠ 'k' := hk
        rw [hn, hshift] at hk'
        exact absurd rfl hk'
      · obtain ⟨n, hn⟩ : ∃ n : Nat, (c.toNat + r.shift : Int) = n :=
          ⟨(c.toNat + r.shift).toNat, by omega⟩
        have hvalid : n.isValidChar := by
          rcases hhigh with hhigh | ⟨hlow', hhigh⟩
          · exact Or.inl (by omega)
          · exact Or.inr ⟨by omega, by omega⟩
        have h' : (Char.ofNat (c.toNat + r.shift).toNat).toNat < 0x80 := h
        rw [hn, Int.toNat_natCast, toNat_ofNat_of_isValidChar hvalid] at h'
        omega

/-- What the lower case form of a character can be, for a capital sigma and a dotted capital I
as well. -/
theorem lowerBetween_eq (before : List Char) (c : Char) (after : List Char) :
    lowerBetween before c after = [lowerChar c] ∨
      (∃ d, lowerBetween before c after = [d] ∧ 0x80 ≤ d.toNat) ∨
      lowerBetween before c after = ['i', '\u0307'] := by
  rw [lowerBetween]
  by_cases hs : c = '\u03A3'
  · rw [if_pos hs]
    refine Or.inr (Or.inl ?_)
    by_cases hm : (meetsCased before && !meetsCased after) = true
    · exact ⟨_, if_pos hm, by decide⟩
    · exact ⟨_, if_neg hm, by decide⟩
  · rw [if_neg hs]
    by_cases hi : c = '\u0130'
    · exact Or.inr (Or.inr (if_pos hi))
    · exact Or.inl (if_neg hi)

end Unicode

/-! ### Keywords and their letters -/

/-- A character that a keyword can have whose spellings are all in the letters A to Z. -/
def KeywordLetter (c : Char) : Prop := c.toNat < 0x80 ∧ c ≠ 'i' ∧ c ≠ 'k'

/-- A keyword whose spellings are all spellings in the letters A to Z: it is ASCII and
has neither `i` nor `k`. -/
def AsciiOnly (word : Text) : Prop := ∀ c ∈ word, c.toNat < 0x80 ∧ c ≠ 'i' ∧ c ≠ 'k'

variable {word text : Text} {c : Char}

theorem toNat_lt_of_toLower (h : c.toLower.toNat < 0x80) : c.toNat < 0x80 := by
  by_contra hc
  rw [Unicode.toLower_of_not_ascii hc] at h
  exact hc h

theorem Text.ascii_of_lowerLetters (hw : AsciiOnly word) (h : lowerLetters text = word) :
    ∀ c ∈ text, c.toNat < 0x80 := by
  intro c hc
  have hmem : c.toLower ∈ word := h ▸ List.mem_map_of_mem hc
  exact toNat_lt_of_toLower (hw _ hmem).1

namespace Unicode

theorem lowerBetween_of_ascii (hc : c.toNat < 0x80) (before after : Text) :
    lowerBetween before c after = [c.toLower] := by
  -- Neither a capital sigma nor a dotted capital I is ASCII.
  have hsigma : c ≠ '\u03A3' := by
    rintro rfl
    exact absurd hc (by decide)
  have hdotted : c ≠ '\u0130' := by
    rintro rfl
    exact absurd hc (by decide)
  rw [lowerBetween, if_neg hsigma, if_neg hdotted, lowerChar_eq_toLower hc]

/-- The lower case form of a character outside ASCII has nothing of a keyword in it. -/
theorem not_keywordLetter_of_mem_lowerBetween (hc : ¬ c.toNat < 0x80) {before after : Text}
    {d : Char} (hd : d ∈ lowerBetween before c after) : ¬ KeywordLetter d := by
  rintro ⟨hascii, hi, hk⟩
  rcases lowerBetween_eq before c after with hone | ⟨e, hone, hlarge⟩ | htwo
  · rw [hone, List.mem_singleton] at hd
    subst hd
    rw [lowerChar_ascii hascii hk] at hascii
    exact hc (toNat_lt_of_toLower hascii)
  · rw [hone, List.mem_singleton] at hd
    subst hd
    omega
  · -- A dotted capital I gives an `i` and a combining dot.
    rw [htwo] at hd
    rcases List.mem_pair.mp hd with rfl | rfl
    · exact hi rfl
    · exact absurd hascii (by decide)

theorem lowerBetween_ne_nil (before : Text) (c : Char) (after : Text) :
    lowerBetween before c after ≠ [] := by
  rcases lowerBetween_eq before c after with hone | ⟨d, hone, -⟩ | htwo
  · rw [hone]
    exact List.cons_ne_nil _ _
  · rw [hone]
    exact List.cons_ne_nil _ _
  · rw [htwo]
    exact List.cons_ne_nil _ _

/-- A letter of a keyword is all of the lower case form that it stands in. -/
theorem whole_of_keywordLetter {before after front back : Text} {d : Char} (hd : KeywordLetter d)
    (h : lowerBetween before c after = front ++ d :: back) :
    c.toNat < 0x80 ∧ front = [] ∧ back = [] := by
  have hc : c.toNat < 0x80 := by
    by_contra hc
    have hmem : d ∈ lowerBetween before c after := by simp [h]
    exact not_keywordLetter_of_mem_lowerBetween hc hmem hd
  rw [lowerBetween_of_ascii hc] at h
  obtain ⟨rfl, hrest⟩ | ⟨-, hnil⟩ := List.singleton_eq_append_iff.mp h
  · exact ⟨hc, rfl, (List.cons.inj hrest).2⟩
  · exact absurd hnil (List.cons_ne_nil _ _)

/-! ### Lower case forms, part by part -/

/-- The lower case form of a part of a text, with `before`, read backwards, and the last
argument around it. -/
def lowercaseBetween (before : Text) : Text → Text → Text
  | [], _ => []
  | c :: rest, after =>
    lowerBetween before c (rest ++ after) ++ lowercaseBetween (c :: before) rest after

theorem lowercaseAfter_append (before part after : Text) :
    lowercaseAfter before (part ++ after) =
      lowercaseBetween before part after ++ lowercaseAfter (part.reverse ++ before) after := by
  induction part generalizing before with
  | nil => rfl
  | cons c rest ih =>
    rw [List.cons_append, lowercaseAfter, ih, lowercaseBetween, List.append_assoc,
      List.reverse_cons, List.append_assoc, List.singleton_append]

theorem lowercaseBetween_of_ascii (h : ∀ c ∈ text, c.toNat < 0x80) (before after : Text) :
    lowercaseBetween before text after = Text.lowerLetters text := by
  induction text generalizing before with
  | nil => rfl
  | cons c rest ih =>
    rw [lowercaseBetween, lowerBetween_of_ascii (h c List.mem_cons_self),
      ih fun d hd => h d (List.mem_cons_of_mem _ hd)]
    rfl

theorem lowercaseAfter_of_ascii (h : ∀ c ∈ text, c.toNat < 0x80) (before : Text) :
    lowercaseAfter before text = Text.lowerLetters text := by
  have hwhole := lowercaseAfter_append before text []
  rwa [List.append_nil, lowercaseBetween_of_ascii h, lowercaseAfter, List.append_nil] at hwhole

end Unicode

/-! ### Keywords inside a text -/

namespace Text

open Unicode (lowercaseBetween)

variable {passed front back : Text}

/-- The text spells the word somewhere in the letters A to Z, in either case.  With `passed`,
read backwards, before the text, `front` and `back` are the lower case forms of what stands
before the spelling and behind it. -/
def SpelledAt (passed text word front back : Text) : Prop :=
  ∃ before spelled after, text = before ++ (spelled ++ after) ∧ lowerLetters spelled = word ∧
    front = lowercaseBetween passed before (spelled ++ after) ∧
    back = lowercaseAfter (spelled.reverse ++ (before.reverse ++ passed)) after

theorem SpelledAt.cons (h : SpelledAt (c :: passed) text word front back) :
    SpelledAt passed (c :: text) word (lowerBetween passed c text ++ front) back := by
  obtain ⟨before, spelled, after, rfl, hspelled, rfl, rfl⟩ := h
  refine ⟨c :: before, spelled, after, rfl, hspelled, rfl, ?_⟩
  rw [List.reverse_cons, List.append_assoc, List.singleton_append]

/-- A keyword at the start of the lower case form is spelled at the start of the text. -/
theorem exists_of_lowercaseAfter_eq (hw : AsciiOnly word)
    (h : lowercaseAfter passed text = word ++ back) :
    ∃ spelled after, text = spelled ++ after ∧ lowerLetters spelled = word ∧
      back = lowercaseAfter (spelled.reverse ++ passed) after := by
  induction word generalizing passed text with
  | nil => exact ⟨[], text, rfl, rfl, h.symm⟩
  | cons w more ih =>
    cases text with
    | nil => exact absurd h (by simp [lowercaseAfter])
    | cons c rest =>
      -- The first letter of the keyword is all of the form of the first character.
      obtain ⟨d, form, hform⟩ :=
        List.exists_cons_of_ne_nil (Unicode.lowerBetween_ne_nil passed c rest)
      rw [lowercaseAfter, hform, List.cons_append, List.cons_append, List.cons.injEq] at h
      obtain ⟨rfl, hmore⟩ := h
      obtain ⟨hc, -, rfl⟩ := Unicode.whole_of_keywordLetter (hw d List.mem_cons_self)
        (hform.trans (List.nil_append _).symm)
      obtain ⟨spelled, after, rfl, rfl, rfl⟩ :=
        ih (fun d hd => hw d (List.mem_cons_of_mem _ hd)) hmore
      rw [Unicode.lowerBetween_of_ascii hc, List.cons.injEq] at hform
      refine ⟨c :: spelled, after, rfl, ?_, ?_⟩
      · rw [← hform.1]
        rfl
      · rw [List.reverse_cons, List.append_assoc, List.singleton_append]

/-- A keyword stands in the lower case form exactly where the text spells it. -/
theorem lowercaseAfter_eq_iff (hne : word ≠ []) (hw : AsciiOnly word) :
    lowercaseAfter passed text = front ++ (word ++ back) ↔
      SpelledAt passed text word front back := by
  constructor
  · intro h
    induction text generalizing passed front with
    | nil => exact absurd h.symm (by simp [lowercaseAfter, hne])
    | cons c rest ih =>
      by_cases hstart : front = []
      · rw [hstart] at h ⊢
        obtain ⟨spelled, after, htext, hspelled, hback⟩ := exists_of_lowercaseAfter_eq hw h
        exact ⟨[], spelled, after, htext, hspelled, rfl, hback⟩
      · -- No keyword begins inside the form of the first character, which is all in `front`.
        rw [lowercaseAfter] at h
        obtain ⟨more, rfl, hrest⟩ : ∃ more, front = lowerBetween passed c rest ++ more ∧
            lowercaseAfter (c :: passed) rest = more ++ (word ++ back) := by
          rcases List.append_eq_append_iff.mp h with hall | ⟨part, hform, hpart⟩
          · exact hall
          · cases part with
            | nil => exact ⟨[], by simpa using hform.symm, by simpa using hpart.symm⟩
            | cons d part =>
              obtain ⟨w, more, rfl⟩ := List.exists_cons_of_ne_nil hne
              rw [List.cons_append, List.cons_append, List.cons.injEq] at hpart
              have hletter : KeywordLetter d := hpart.1 ▸ hw w List.mem_cons_self
              exact absurd (Unicode.whole_of_keywordLetter hletter hform).2.1 hstart
        exact (ih hrest).cons
  · rintro ⟨before, spelled, after, rfl, hspelled, rfl, rfl⟩
    rw [Unicode.lowercaseAfter_append, Unicode.lowercaseAfter_append,
      Unicode.lowercaseBetween_of_ascii (ascii_of_lowerLetters hw hspelled), hspelled]

/-- The same for the lower case form of a whole text. -/
theorem lowercase_eq_iff (hne : word ≠ []) (hw : AsciiOnly word) :
    lowercase text = front ++ (word ++ back) ↔ SpelledAt [] text word front back :=
  lowercaseAfter_eq_iff hne hw

/-- A text has such a keyword somewhere exactly if it has it there in the letters A to Z. -/
theorem mentions_iff (hne : word ≠ []) (hw : AsciiOnly word) (hlower : lowerLetters word = word) :
    mentions text word = true ↔ word <:+: lowerLetters text := by
  have hself : lowercase word = word :=
    (Unicode.lowercaseAfter_of_ascii (fun c hc => (hw c hc).1) []).trans hlower
  rw [mentions, contains_iff, hself]
  constructor
  · rintro ⟨front, back, h⟩
    rw [List.append_assoc] at h
    obtain ⟨before, spelled, after, rfl, rfl, -, -⟩ := (lowercase_eq_iff hne hw).mp h.symm
    exact ⟨lowerLetters before, lowerLetters after, by simp⟩
  · intro h
    obtain ⟨spelled, ⟨before, after, rfl⟩, hspelled⟩ := List.infix_map_iff.mp h
    have hplace := (lowercase_eq_iff hne hw).mpr
      ⟨before, spelled, after, List.append_assoc .., hspelled.symm, rfl, rfl⟩
    exact ⟨_, _, (List.append_assoc ..).trans hplace.symm⟩

-- The Kelvin sign and the dotted capital I are found in place of a `k` and an `i`.
example : mentions ['\u212A'] ['k'] = true ∧ mentions ['\u0130'] ['i'] = true := by decide

/-! ### Tokens that are keywords -/

/-- A text whose lower case form is such a keyword spells it in the letters A to Z. -/
theorem lowerLetters_eq_of_lowercase (hw : AsciiOnly word) (h : lowercase text = word) :
    lowerLetters text = word := by
  obtain ⟨spelled, after, rfl, hspelled, hback⟩ :=
    exists_of_lowercaseAfter_eq hw (h.trans (List.append_nil _).symm)
  cases after with
  | nil => rwa [List.append_nil]
  | cons c rest =>
    rw [lowercaseAfter] at hback
    exact absurd (List.append_eq_nil_iff.mp hback.symm).1 (Unicode.lowerBetween_ne_nil _ c rest)

/-- The letters of a spelling are those of the keyword. -/
theorem toLower_mem_of_spells {token : Text} (hw : AsciiOnly word)
    (h : spells token word = true) (hc : c ∈ token) : c.toLower ∈ word := by
  rw [spells, beq_iff_eq] at h
  rw [← lowerLetters_eq_of_lowercase hw h]
  exact List.mem_map_of_mem hc

/-- A text spells such a keyword exactly if it does so in the letters A to Z. -/
theorem spells_eq_sameLetters (hw : AsciiOnly word) (hlower : lowerLetters word = word)
    (token : Text) : spells token word = sameLetters token word := by
  rw [Bool.eq_iff_iff, spells, sameLetters, hlower, beq_iff_eq, beq_iff_eq]
  constructor
  · exact fun h => lowerLetters_eq_of_lowercase hw h
  · intro h
    exact (Unicode.lowercaseAfter_of_ascii (ascii_of_lowerLetters hw h) []).trans h

end Text

end AsmCatalog
