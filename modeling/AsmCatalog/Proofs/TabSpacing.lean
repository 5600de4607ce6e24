/-
Tabs are spaces.

The bytes of a source are cut into lines, freed from terminators and marks and decoded, and
only then every tab becomes a space.  A source whose tabs have been replaced by spaces before
all this gives the same file and the same events.  The replacement moves no byte and makes no
terminator, and a tab is never a part of a longer character: where it stands in the midst of
one it breaks it off, as a space does.

Main definitions:
* `spaced` — the bytes with a space for every tab;
* `Source.spaced` — the source with them, also where its bytes are replaced.

Main statements:
* `Utf8.expandTabs_decode_spaced` — decoded bytes differ in their tabs alone;
* `Source.unnoticed_spaced` — no cursor notices the replacement;
* `Catalog.ofSource_spaced` — tabs and spaces are imported alike.
-/
import AsmCatalog.Proofs.SourceChange
import AsmCatalog.Proofs.Terminator

namespace AsmCatalog

/-- The byte of a tab. -/
def tabByte : UInt8 := 9

/-- The byte of a space. -/
def spaceByte : UInt8 := 32

/-- A byte, or a space for a tab. -/
def spacedByte (b : UInt8) : UInt8 := if b = tabByte then spaceByte else b

/-- The bytes with a space for every tab. -/
def spaced (bytes : Bytes) : Bytes := bytes.map spacedByte

@[simp] theorem length_spaced (bytes : Bytes) : (spaced bytes).length = bytes.length :=
  List.length_map _

/-! ### Lines and terminators -/

theorem spacedByte_of_ne {b : UInt8} (h : b ≠ tabByte) : spacedByte b = b := if_neg h

/-- Neither a tab nor a space ends a line. -/
theorem spacedByte_eq_iff {b c : UInt8} (hc : c ≠ tabByte) (hc' : c ≠ spaceByte) :
    spacedByte b = c ↔ b = c := by
  by_cases hb : b = tabByte
  · rw [spacedByte, if_pos hb, hb]
    exact iff_of_false hc'.symm hc.symm
  · rw [spacedByte_of_ne hb]

theorem spacedByte_eq_newline {b : UInt8} : spacedByte b = newline ↔ b = newline :=
  spacedByte_eq_iff (by decide) (by decide)

theorem newline_mem_spaced {bytes : Bytes} : newline ∈ spaced bytes ↔ newline ∈ bytes := by
  simp only [spaced, List.mem_map, spacedByte_eq_newline, exists_eq_right]

/-- The lines end at the same places. -/
theorem throughNewline_spaced (bytes : Bytes) :
    throughNewline (spaced bytes) = spaced (throughNewline bytes) := by
  induction bytes with
  | nil => rfl
  | cons b rest ih =>
    rw [show spaced (b :: rest) = spacedByte b :: spaced rest from rfl, throughNewline,
      throughNewline]
    by_cases hb : b = newline
    · rw [if_pos hb, if_pos (spacedByte_eq_newline.mpr hb)]
      rfl
    · rw [if_neg hb, if_neg (mt spacedByte_eq_newline.mp hb), ih]
      rfl

/-- Terminators are the same. -/
theorem withoutTerminator_spaced (line : Bytes) :
    withoutTerminator (spaced line) = spaced (withoutTerminator line) :=
  withoutTerminator_map (fun _ => spacedByte_eq_newline)
    (fun _ => spacedByte_eq_iff (by decide) (by decide)) line

/-! ### Decoding -/

namespace Utf8

/-- The next byte of the unfinished character, if there is one, must be 0x80 at least. -/
def Trails (p : Option Pending) : Prop := ∀ q ∈ p, 0x80 ≤ q.low.toNat

theorem trails_none : Trails none := fun q hq => by cases hq

theorem trails_further (bits missing : Nat) : Trails (some ⟨bits, missing, 0x80, 0xBF⟩) := by
  rintro q ⟨⟩
  exact Nat.le_of_ble_eq_true rfl

theorem trails_of_lead {b : UInt8} {p : Pending} (h : lead b = .started p) : Trails (some p) := by
  rintro q ⟨⟩
  rw [lead] at h
  split_ifs at h
  all_goals
    rw [← Lead.started.inj h]
    exact Nat.le_of_ble_eq_true rfl

/-- A byte below 0x80 is a character of its own, and breaks off one that is unfinished. -/
theorem decodeAfter_single {p : Option Pending} (hp : Trails p) {b : UInt8}
    (hb : b.toNat < 0x80) (rest : Bytes) :
    decodeAfter p (b :: rest) =
      (p.map fun _ => replacement).toList ++ Char.ofNat b.toNat :: decodeAfter none rest := by
  have hlead : decodeAfter none (b :: rest) = Char.ofNat b.toNat :: decodeAfter none rest := by
    rw [decodeAfter, lead, if_pos hb]
  cases p with
  | none => exact hlead
  | some q =>
    have hrejects : q.accepts b = false := by
      rw [Pending.accepts, Bool.and_eq_false_iff]
      refine Or.inl (decide_eq_false fun hle => ?_)
      have := UInt8.le_iff_toNat_le.mp hle
      have := hp q rfl
      omega
    rw [decodeAfter_of_rejected hrejects, hlead]
    rfl

/-- Decoded bytes differ in their tabs alone, also behind the start of a character. -/
theorem expandTabs_decodeAfter_spaced {p : Option Pending} (hp : Trails p) (bytes : Bytes) :
    Text.expandTabs (decodeAfter p (spaced bytes)) = Text.expandTabs (decodeAfter p bytes) := by
  have hcons : ∀ {text text'}, Text.expandTabs text = Text.expandTabs text' → ∀ c,
      Text.expandTabs (c :: text) = Text.expandTabs (c :: text') := fun h c => congrArg (_ :: ·) h
  induction bytes generalizing p with
  | nil => rfl
  | cons b rest ih =>
    rw [show spaced (b :: rest) = spacedByte b :: spaced rest from rfl]
    by_cases hb : b = tabByte
    · -- A tab is a character of its own wherever it stands, and so is the space in its place.
      rw [hb, show spacedByte tabByte = spaceByte from rfl, decodeAfter_single hp (by decide),
        decodeAfter_single hp (by decide), Text.expandTabs_append, Text.expandTabs_append]
      exact congrArg (fun text => _ ++ ' ' :: text) (ih trails_none)
    · rw [spacedByte_of_ne hb]
      have hfirst : Text.expandTabs (decodeAfter none (b :: spaced rest)) =
          Text.expandTabs (decodeAfter none (b :: rest)) := by
        rw [decodeAfter, decodeAfter]
        cases hlead : lead b with
        | finished c => exact hcons (ih trails_none) c
        | started q => exact ih (trails_of_lead hlead)
      cases p with
      | none => exact hfirst
      | some q =>
        cases haccepts : q.accepts b with
        | false =>
          rw [decodeAfter_of_rejected haccepts, decodeAfter_of_rejected haccepts]
          exact hcons hfirst _
        | true =>
          rw [decodeAfter, decodeAfter, if_pos haccepts, if_pos haccepts]
          by_cases hlast : q.missing ≤ 1
          · rw [if_pos hlast, if_pos hlast]
            exact hcons (ih trails_none) _
          · rw [if_neg hlast, if_neg hlast]
            exact ih (trails_further _ _)

theorem expandTabs_decode_spaced (bytes : Bytes) :
    Text.expandTabs (decode (spaced bytes)) = Text.expandTabs (decode bytes) :=
  expandTabs_decodeAfter_spaced trails_none bytes

end Utf8

/-- The mark is hidden before or after tabs have become spaces. -/
theorem expandTabs_withoutMark (text : Text) :
    Text.expandTabs (withoutMark text) = withoutMark (Text.expandTabs text) := by
  cases text with
  | nil => rfl
  | cons c rest =>
    by_cases hc : c = '\uFEFF'
    · rw [hc]
      rfl
    · have hspaced : (if c = '\t' then ' ' else c) ≠ '\uFEFF' := by
        split
        · decide
        · exact hc
      have hmark : (c :: rest).head? ≠ some '\uFEFF' := fun hhead => hc (Option.some.inj hhead)
      have hmark' : (Text.expandTabs (c :: rest)).head? ≠ some '\uFEFF' :=
        fun hhead => hspaced (Option.some.inj hhead)
      rw [withoutMark_of_head?_ne hmark, withoutMark_of_head?_ne hmark']

/-! ### Sources -/

theorem lineText_spaced (position : Nat) (line : Bytes) :
    lineText position (spaced line) = lineText position line := by
  rw [lineText, lineText, withoutTerminator_spaced]
  by_cases h : position = 0
  · rw [if_pos h, if_pos h, expandTabs_withoutMark, expandTabs_withoutMark,
      Utf8.expandTabs_decode_spaced]
  · rw [if_neg h, if_neg h, Utf8.expandTabs_decode_spaced]

namespace Source

/-- The source with a space for every tab, also in the bytes that replace its own. -/
def spaced (s : Source) : Source :=
  { s with
    bytes := AsmCatalog.spaced s.bytes
    replacement := s.replacement.map fun r => { r with bytes := AsmCatalog.spaced r.bytes } }

theorem lineAt_spaced (s : Source) (position : Nat) :
    s.spaced.lineAt position = AsmCatalog.spaced (s.lineAt position) := by
  rw [lineAt, lineAt, ← throughNewline_spaced]
  exact congrArg throughNewline (List.map_drop ..).symm

/-- No cursor notices it when tabs become spaces. -/
theorem unnoticed_spaced : Unnoticed spaced where
  immovable _ := rfl
  failure _ _ := rfl
  stops _ _ _ := rfl
  moved s offset := by
    rw [moved, moved, show s.spaced.replacement = s.replacement.map _ from rfl]
    cases hr : s.replacement with
    | none => rfl
    | some r =>
      show (if r.offset = offset then _ else _) = spaced (if r.offset = offset then _ else _)
      by_cases h : r.offset = offset
      · rw [if_pos h, if_pos h]
        rfl
      · rw [if_neg h, if_neg h]
  capacity s := by
    rw [capacity, capacity, show s.spaced.replacement = s.replacement.map _ from rfl,
      Option.map_map]
    exact congrArg₂ max (length_spaced _)
      (congrArg (Option.getD · 0) (Option.map_congr fun r _ => length_spaced _))
  length s := length_spaced s.bytes
  touched s position := by
    rw [lastTouched, lastTouched, lineAt_spaced, length_spaced]
    exact ite_congr (propext newline_mem_spaced) (fun _ => rfl) fun _ => rfl
  lineLength s position := by rw [lineAt_spaced, length_spaced]
  contentLength s position := by
    rw [lineAt_spaced, withoutTerminator_spaced, length_spaced]
  text s position := by rw [lineAt_spaced, lineText_spaced]

end Source

/-- A source and the same source with a space for every tab are imported alike: the files
agree in everything, so do the events, and an import that fails fails in both for the same
reason. -/
theorem Catalog.ofSource_spaced (settings : Import.Settings) (path : SourcePath)
    (source : Source) (start : Nat) (stopped : Bool) :
    ofSource settings path source.spaced start stopped =
      ofSource settings path source start stopped :=
  ofSource_change Source.unnoticed_spaced settings path source start stopped

end AsmCatalog
