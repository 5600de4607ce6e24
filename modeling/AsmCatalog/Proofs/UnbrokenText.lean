/-
Texts without line breaks.

A line is stored up to its newline, and no other byte decodes to a line break.  So nothing that
an import reads of a line has one, and neither has what a row of a listing says of a chunk.
Lines without line breaks that are put together can be cut apart again.

Main definitions:
* `Utf8.Exceeds` — an unfinished character that cannot become one of ASCII;
* `Content.Unbroken` — the texts of a chunk have no line break.

Main statements:
* `Text.splitOn_lines` — lines that were put together are cut apart again;
* `Utf8.mem_of_mem_decode` — a character of ASCII is decoded from its own byte;
* `Catalog.unbroken_of_ofSource` — every import gives chunks without line breaks;
* `Catalog.newline_notMem_detail` — what a listing says of a chunk has no line break.
-/
import AsmCatalog.Listing
import AsmCatalog.Proofs.BracketScan
import AsmCatalog.Proofs.ByteOrderMark
import AsmCatalog.Proofs.HeaderLayout
import AsmCatalog.Proofs.Visibility

namespace AsmCatalog

open Text

variable {text line : Text} {c : Char}

/-- Lines that were put together, each with its end, are cut apart again. -/
theorem Text.splitOn_lines {lines : List Text} (h : ∀ line ∈ lines, '\n' ∉ line) (rest : Text) :
    (lines.flatMap (· ++ ['\n']) ++ rest).splitOn '\n' = lines ++ rest.splitOn '\n' := by
  induction lines with
  | nil => rfl
  | cons line lines ih =>
    obtain ⟨hline, hlines⟩ := List.forall_mem_cons.mp h
    rw [List.flatMap_cons, List.append_assoc, List.append_assoc, List.singleton_append,
      List.splitOn_append_cons_self_of_not_mem hline, ih hlines, List.cons_append]

/-! ### Decoding -/

namespace Utf8

/-- No bytes make an ASCII character of this unfinished one: its bits are enough already, or
the next byte adds enough to them and another one follows. -/
def Exceeds (p : Pending) : Prop :=
  2 ≤ p.bits ∨ 2 ≤ p.missing ∧ (1 ≤ p.bits ∨ 0x82 ≤ p.low.toNat)

/-- What a first byte gives makes an ASCII character of its own byte alone. -/
def Lead.Faithful (b : UInt8) : Lead → Prop
  | .finished c => c.toNat < 0x80 → b = UInt8.ofNat c.toNat
  | .started p => Exceeds p

theorem faithful_lead (b : UInt8) : (lead b).Faithful b := by
  have hreplaced : (Lead.finished replacement).Faithful b := fun h => absurd h (by decide)
  rw [lead]
  split_ifs with hascii hcontinued htwo hE0 hED hthree hF0 hfour hF4
  · intro _
    rw [Unicode.toNat_ofNat_of_isValidChar (.inl (by omega)), UInt8.ofNat_toNat]
  · exact hreplaced
  · exact .inl (show 2 ≤ b.toNat - 0xC0 by omega)
  · exact .inr ⟨Nat.le_refl 2, .inr (Nat.le_of_ble_eq_true rfl)⟩
  · exact .inl (Nat.le_of_ble_eq_true rfl)
  · exact .inr ⟨Nat.le_refl 2, .inl (show 1 ≤ b.toNat - 0xE0 by omega)⟩
  · exact .inr ⟨Nat.le_of_ble_eq_true rfl, .inr (Nat.le_of_ble_eq_true rfl)⟩
  · exact .inr ⟨Nat.le_of_ble_eq_true rfl, .inl (show 1 ≤ b.toNat - 0xF0 by omega)⟩
  · exact .inl (Nat.le_of_ble_eq_true rfl)
  · exact hreplaced

/-- Behind an unfinished character that exceeds ASCII, an ASCII character comes of its own
byte. -/
theorem mem_of_mem_decodeAfter (hc : c.toNat < 0x80) (hzero : c ≠ '\x00') {p : Option Pending}
    (hp : ∀ q ∈ p, Exceeds q) {bytes : Bytes} (h : c ∈ decodeAfter p bytes) :
    UInt8.ofNat c.toNat ∈ bytes := by
  have hreplaced : c ≠ replacement := by
    rintro rfl
    exact absurd hc (by decide)
  induction bytes generalizing p with
  | nil =>
    cases p with
    | none => exact absurd h List.not_mem_nil
    | some q =>
      rw [decodeAfter, List.mem_singleton] at h
      exact absurd h hreplaced
  | cons b rest ih =>
    -- Where no character is unfinished, and where the byte breaks one off, it is read as a
    -- first byte.
    have hfirst (h : c ∈ decodeAfter none (b :: rest)) : UInt8.ofNat c.toNat ∈ b :: rest := by
      have hlead := faithful_lead b
      rw [decodeAfter] at h
      cases hgives : lead b with
      | finished d =>
        rw [hgives] at h hlead
        rcases List.mem_cons.mp h with rfl | hrest
        · exact hlead hc ▸ List.mem_cons_self
        · exact List.mem_cons_of_mem _ (ih (by simp) hrest)
      | started q =>
        rw [hgives] at h hlead
        have hexceeds : Exceeds q := hlead
        exact List.mem_cons_of_mem _ (ih (by simpa using hexceeds) h)
    cases p with
    | none => exact hfirst h
    | some q =>
      cases haccepts : q.accepts b with
      | false =>
        rw [decodeAfter_of_rejected haccepts] at h
        exact hfirst ((List.mem_cons.mp h).resolve_left hreplaced)
      | true =>
        rw [decodeAfter, if_pos haccepts] at h
        rw [Pending.accepts, Bool.and_eq_true, decide_eq_true_iff, UInt8.le_iff_toNat_le]
          at haccepts
        have hlow := haccepts.1
        have hextended : q.extended b = q.bits * 64 + (b.toNat - 0x80) := rfl
        have hq := hp q rfl
        rw [Exceeds] at hq
        split at h
        · -- Two bits or more are too much for ASCII once six others have been added.
          rcases List.mem_cons.mp h with hlast | hrest
          · have hvalue := Unicode.eq_toNat_of_ofNat_eq hzero hlast.symm
            omega
          · exact List.mem_cons_of_mem _ (ih (by simp) hrest)
        · -- The bits of a further byte leave enough behind it.
          have hmore : Exceeds ⟨q.extended b, q.missing - 1, 0x80, 0xBF⟩ :=
            .inl (show 2 ≤ q.extended b by omega)
          exact List.mem_cons_of_mem _ (ih (by simpa using hmore) h)

/-- An ASCII character is decoded from its own byte. -/
theorem mem_of_mem_decode (hc : c.toNat < 0x80) (hzero : c ≠ '\x00') {bytes : Bytes}
    (h : c ∈ decode bytes) : UInt8.ofNat c.toNat ∈ bytes :=
  mem_of_mem_decodeAfter hc hzero (by simp) h

end Utf8

/-! ### Lines -/

theorem mem_of_mem_withoutMark (h : c ∈ withoutMark text) : c ∈ text := by
  rw [withoutMark.eq_def] at h
  split at h
  · exact List.mem_cons_of_mem _ h
  · exact h

/-- The text of a stored line has no line break. -/
theorem newline_notMem_lineText (source : Source) (position : Nat) :
    '\n' ∉ lineText position (source.lineAt position) := by
  intro h
  rw [lineText] at h
  obtain ⟨c, hc, hnewline⟩ := List.mem_map.mp h
  have hc : '\n' ∈ Utf8.decode (withoutTerminator (source.lineAt position)) := by
    split at hnewline
    · exact absurd hnewline (by decide)
    · rw [← hnewline]
      split at hc
      · exact mem_of_mem_withoutMark hc
      · exact hc
  exact newline_notMem_withoutTerminator _ (Utf8.mem_of_mem_decode (by decide) (by decide) hc)

/-! ### What is read of a line -/

theorem mem_of_mem_commentText (hc : c ≠ ' ') (h : c ∈ commentText line) : c ∈ line := by
  obtain ⟨d, hd, heq⟩ := List.mem_map.mp (mem_of_mem_normalize hc h)
  split at heq
  · exact absurd heq.symm hc
  · exact heq ▸ hd

theorem mem_of_mem_token {token : Text} (hc : c ≠ ' ')
    (htoken : token ∈ tokens (normalize line)) (h : c ∈ token) : c ∈ line := by
  refine mem_of_mem_normalize hc ?_
  have hflat := List.mem_flatten_of_mem htoken h
  rw [tokens, flatten_splitOn] at hflat
  exact List.mem_of_mem_filter hflat

theorem MacroHeader.mem_of_mem_nameOf (hc : c ≠ ' ') (h : c ∈ nameOf (normalize line)) :
    c ∈ line := by
  rw [nameOf] at h
  split at h
  · rename_i htokens
    exact mem_of_mem_token hc (htokens ▸ List.mem_cons_self) h
  · exact absurd h List.not_mem_nil

theorem MacroHeader.mem_of_mem_parameters {mode : Mode} {header : MacroHeader} (hc : c ≠ ' ')
    (h : parse? mode (normalize line) = some header) {p : Text} (hp : p ∈ header.parameters)
    (hcp : c ∈ p) : c ∈ line := by
  rcases exists_of_parse? h with hnone | ⟨text, hsplit, htext⟩
  · rw [hnone] at hp
    exact absurd hp List.not_mem_nil
  · rw [hsplit] at hp
    exact mem_of_mem_normalize hc (htext c (mem_of_mem_splitParameters hp hcp).1)

theorem Equate.mem_of_parse? {mode : Mode} {e : Equate} (hc : c ≠ ' ')
    (h : parse? mode text = some e) : (c ∈ e.name → c ∈ text) ∧ (c ∈ e.value → c ∈ text) := by
  rw [parse?] at h
  split at h
  · rename_i name keyword value behind htokens
    split at h
    · rw [← Option.some.inj h]
      exact ⟨mem_of_mem_token hc (htokens ▸ by simp), mem_of_mem_token hc (htokens ▸ by simp)⟩
    · exact absurd h (by simp)
  · exact absurd h (by simp)

theorem mem_of_mem_dotLabel (h : c ∈ (dotLabel text).2) : c ∈ text := by
  rw [dotLabel] at h
  split at h
  · rename_i rest htext
    have hrest : rest ⊆ text := by
      have hsuffix : '.' :: rest <:+ text := htext ▸ List.dropWhile_suffix _
      exact ((List.suffix_cons _ _).trans hsuffix).subset
    split at h
    · exact hrest ((List.dropWhile_suffix _).subset h)
    · exact absurd h List.not_mem_nil
  · exact h

theorem mem_of_mem_splitArguments {content : Text} (hcontent : content ∈ splitArguments text)
    (h : c ∈ content) : c ∈ text := by
  have hflat := List.mem_flatten_of_mem hcontent h
  rw [splitArguments_eq, flatten_map_keptText] at hflat
  obtain ⟨s, hs, rfl⟩ := List.mem_map.mp hflat
  rw [← map_char_scannedFrom false text]
  exact List.mem_map_of_mem (List.mem_of_mem_filter hs)

/-- An argument of a call is read from its text, and may have the name of a parameter. -/
theorem Invocation.mem_of_parse? {mode : Mode} {candidates : List (Macro Chunk)}
    {i : Invocation Chunk} (h : parse? mode candidates text = some i) {a : Argument}
    (ha : a ∈ i.arguments) :
    (c ∈ a.content → c ∈ text) ∧ ∀ name ∈ a.name, name ∈ i.callee.parameters := by
  rw [parse?] at h
  obtain ⟨callee, -, rfl⟩ := Option.map_eq_some_iff.mp h
  split at ha
  · exact absurd ha List.not_mem_nil
  · rename_i d behind hbehind
    obtain ⟨k, hk, rfl⟩ := List.mem_mapIdx.mp ha
    have hsuffix : behind <:+ trim text :=
      (List.suffix_cons _ _).trans (hbehind ▸ List.dropWhile_suffix _)
    exact ⟨fun hc => mem_of_mem_trim (hsuffix.subset
      (mem_of_mem_splitArguments (List.getElem_mem hk) hc)), fun name hname =>
        List.mem_of_getElem? hname⟩

/-! ### Chunks -/

/-- The texts of a macro definition have no line break. -/
def Macro.Unbroken {β : Type} (m : Macro β) : Prop :=
  '\n' ∉ m.name ∧ ∀ p ∈ m.parameters, '\n' ∉ p

/-- The texts of a chunk have no line break. -/
def Content.Unbroken {β : Type} : Content β → Prop
  | .comment text => '\n' ∉ text
  | .statement s => '\n' ∉ s.text
  | .macroDef m => m.Unbroken

namespace Import

theorem newline_notMem_here (g : Stage) : '\n' ∉ g.here.text :=
  newline_notMem_lineText g.source g.position

/-- Every dispatch gives a chunk without line breaks. -/
theorem carries_unbroken (settings : Settings) :
    Carries settings (fun _ => True) fun c => c.content.Unbroken where
  step := fun _ _ _ => trivial
  plain := by
    intro g g' c _ hplain
    -- Each text of a chunk is read of the line that is dispatched.
    have hline := newline_notMem_here g.reopened
    cases hplain with
    | comment _ _ _ hc =>
      rw [hc]
      exact fun h => hline (mem_of_mem_commentText (by decide) h)
    | statement _ _ _ hc _ =>
      rw [hc]
      exact hline
    | malformed _ _ _ _ hc =>
      rw [hc]
      exact ⟨fun h => hline (MacroHeader.mem_of_mem_nameOf (by decide) h), by simp⟩
  definition := by
    intro g g' header inner ended _ hopens _
    have hline := newline_notMem_here g.reopened
    have hheader :
        MacroHeader.parse? settings.mode (normalize g.reopened.here.text) = some header :=
      hopens.header
    refine ⟨fun h => hline ?_, fun p hp h => hline ?_⟩
    · have hname : '\n' ∈ header.name := h
      rw [MacroHeader.name_of_parse? hheader] at hname
      exact MacroHeader.mem_of_mem_nameOf (by decide) hname
    · exact MacroHeader.mem_of_mem_parameters (by decide) hheader hp h

end Import

/-! ### Details -/

theorem mem_of_mem_intercalate {sep : Text} (hsep : c ∉ sep) {parts : List Text}
    (h : c ∈ sep.intercalate parts) : ∃ part ∈ parts, c ∈ part := by
  induction parts with
  | nil => exact absurd h List.not_mem_nil
  | cons part rest ih =>
    by_cases hrest : rest = []
    · subst hrest
      rw [List.intercalate_singleton] at h
      exact ⟨part, List.mem_cons_self, h⟩
    · rw [List.intercalate_cons_of_ne_nil hrest, List.mem_append, List.mem_append] at h
      rcases h with (hpart | hhere) | hlater
      · exact ⟨part, List.mem_cons_self, hpart⟩
      · exact absurd hhere hsep
      · obtain ⟨later, hmem, hc⟩ := ih hlater
        exact ⟨later, List.mem_cons_of_mem _ hmem, hc⟩

theorem newline_notMem_ofNat (n : Nat) : '\n' ∉ Text.ofNat n := fun h =>
  absurd (Nat.isDigit_of_mem_toDigits (by decide) (Nat.le_refl 10) h) (by decide)

/-- What a definition says has no line break. -/
theorem Macro.newline_notMem_detail {m : Macro Chunk} (h : m.Unbroken) : '\n' ∉ m.detail := by
  rw [detail]
  split
  · have hparameters : '\n' ∉ [',', ' '].intercalate m.parameters := by
      intro hmem
      obtain ⟨p, hp, hmem⟩ := mem_of_mem_intercalate (by decide) hmem
      exact h.2 p hp hmem
    have hlabel : '\n' ∉ " body lines".toList := by decide
    simp only [List.mem_append, not_or]
    exact ⟨⟨⟨⟨⟨h.1, by decide⟩, hparameters⟩, by decide⟩, newline_notMem_ofNat _⟩, hlabel⟩
  · decide

/-- What a call says has no line break if its line and the macro that it calls have none. -/
theorem Invocation.newline_notMem_detail {mode : Mode} {candidates : List (Macro Chunk)}
    {i : Invocation Chunk} (h : parse? mode candidates text = some i) (htext : '\n' ∉ text)
    (hcallee : i.callee.Unbroken) : '\n' ∉ (Form.invoke i).detail := by
  have harguments : '\n' ∉ [',', ' '].intercalate (i.arguments.map Argument.detail) := by
    intro hmem
    obtain ⟨part, hpart, hmem⟩ := mem_of_mem_intercalate (by decide) hmem
    obtain ⟨a, ha, rfl⟩ := List.mem_map.mp hpart
    obtain ⟨hcontent, hname⟩ := mem_of_parse? (c := '\n') h ha
    rw [Argument.detail] at hmem
    split at hmem
    · rename_i name heq
      rw [List.mem_append, List.mem_append] at hmem
      rcases hmem with (hmem | hmem) | hmem
      · exact hcallee.2 name (hname name heq) hmem
      · exact absurd hmem (by decide)
      · exact htext (hcontent hmem)
    · exact htext (hcontent hmem)
  rw [Form.detail, List.mem_append, List.mem_append, not_or, not_or]
  exact ⟨⟨hcallee.1, by decide⟩, harguments⟩

/-- What a statement says has no line break if its line and the macros that it can call have
none. -/
theorem Statement.newline_notMem_detail (mode : Mode) {candidates : List (Macro Chunk)}
    (hline : '\n' ∉ line) (hcandidates : ∀ m ∈ candidates, m.Unbroken) :
    '\n' ∉ (Statement.parse mode candidates line).detail := by
  have hcode : '\n' ∉ (dotLabel (withoutComment line)).2 := fun h =>
    hline ((List.takeWhile_prefix _).subset (mem_of_mem_dotLabel h))
  rw [detail]
  split
  · rename_i form hsome
    have hform : Form.parse? mode candidates (dotLabel (withoutComment line)).2 = some form :=
      hsome
    rw [Form.parse?] at hform
    split at hform
    · exact absurd hform (by simp)
    · split at hform
      · rename_i e hequate
        obtain rfl := Option.some.inj hform
        obtain ⟨hname, hvalue⟩ := Equate.mem_of_parse? (show '\n' ≠ ' ' by decide) hequate
        rw [Form.detail, List.mem_append, List.mem_append, not_or, not_or]
        exact ⟨⟨fun h => hcode (hname h), by decide⟩, fun h => hcode (hvalue h)⟩
      · obtain ⟨i, hcall, rfl⟩ := Option.map_eq_some_iff.mp hform
        exact Invocation.newline_notMem_detail hcall hcode
          (hcandidates _ (callee_mem_of_form hsome))
  · exact fun h => hline (mem_of_mem_trim h)

namespace Catalog

variable {settings : Import.Settings} {path : SourcePath} {source : Source} {start : Nat}
  {stopped : Bool} {file : Catalog}

/-- Every import gives chunks without line breaks. -/
theorem unbroken_of_ofSource
    (h : (ofSource settings path source start stopped).result = .ok file) {c : Chunk}
    (hc : c ∈ file.allChunks) : c.content.Unbroken := by
  obtain ⟨entries, g, hscan, rfl, hchunks⟩ := exists_entries h
  rw [allChunks, hchunks] at hc
  exact hscan.forall_chunk (Import.carries_unbroken settings) (fun _ => trivial) trivial hc

/-- The macros that a file defines have no line breaks. -/
theorem Imported.unbroken {f : Catalog} (h : f.Imported) {d : Chunk} (hd : d ∈ f.chunks.toList)
    {m : Macro Chunk} (hm : d.definition? = some m) : m.Unbroken := by
  obtain ⟨settings, path, source, start, stopped, h⟩ := h
  have hall : d ∈ f.allChunks := List.mem_flatMap.mpr ⟨d, hd, d.mem_all_self⟩
  have hunbroken := unbroken_of_ofSource h hall
  rw [Chunk.definition?] at hm
  split at hm
  · rename_i m' hcontent
    rw [hcontent] at hunbroken
    exact Option.some.inj hm ▸ hunbroken
  · exact absurd hm (by simp)

/-- Neither have the macros that its statements can call. -/
theorem unbroken_of_mem_candidatesAt (hfile : file.Imported) {includes : List Catalog}
    (hincludes : ∀ f ∈ includes, f.Imported) {p : Nat} {m : Macro Chunk}
    (hm : m ∈ file.candidatesAt includes p) : m.Unbroken := by
  rw [candidatesAt, List.mem_append] at hm
  rcases hm with hm | hm
  · obtain ⟨f, hf, hm⟩ := List.mem_flatMap.mp hm
    obtain ⟨d, hd, hdefinition⟩ := List.mem_filterMap.mp hm
    obtain ⟨⟨f, k⟩, hk, rfl⟩ := List.mem_map.mp hf
    have hf := hincludes f (List.fst_mem_of_mem_zipIdx (List.mem_of_mem_filter hk))
    exact hf.unbroken hd hdefinition
  · split at hm
    · exact absurd hm List.not_mem_nil
    · obtain ⟨d, hd, hm⟩ := List.mem_filterMap.mp hm
      exact hfile.unbroken (List.mem_of_mem_filter hd) hm

/-- What a listing says of a chunk has no line break, whatever the chunk holds. -/
theorem newline_notMem_detail
    (h : (ofSource settings path source start stopped).result = .ok file)
    (hincludes : ∀ f ∈ settings.includes, f.Imported) {c : Chunk}
    (hc : c ∈ file.chunks.toList) : '\n' ∉ c.detail := by
  have hall : c ∈ file.allChunks := List.mem_flatMap.mpr ⟨c, hc, c.mem_all_self⟩
  have hunbroken := unbroken_of_ofSource h hall
  rw [Chunk.detail]
  cases hcontent : c.content with
  | comment text =>
    rw [hcontent] at hunbroken
    exact hunbroken
  | statement s =>
    rw [hcontent] at hunbroken
    obtain ⟨text, rfl⟩ := parse_of_ofSource h hall hcontent
    exact Statement.newline_notMem_detail settings.mode hunbroken fun m hm =>
      unbroken_of_mem_candidatesAt ⟨settings, path, source, start, stopped, h⟩ hincludes hm
  | macroDef m =>
    rw [hcontent] at hunbroken
    exact Macro.newline_notMem_detail hunbroken

end Catalog

end AsmCatalog
