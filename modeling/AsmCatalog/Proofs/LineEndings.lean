/-
Both line endings are imported alike.

A line may end with a newline or with a return and a newline.  A source that ends its lines
in the first way has the same lines, with the same texts and numbers, as the source in which
every newline has got a return before it.  A line begins there as many bytes further on as
there are lines before it, and everything that takes up whole lines is longer by the newlines
in it.

Main definitions:
* `withReturns` — the bytes with a return before every newline;
* `Transfer.withReturns` — where things go when returns are put into a source.

Main statements:
* `splitLines_withReturns`, `withoutTerminator_withReturns` — lines and terminators;
* `physicalLines_withReturns` — the lines of both sources;
* `Catalog.ofSource_withReturns` — sources with either line ending are imported alike.
-/
import AsmCatalog.Proofs.Concatenation
import AsmCatalog.Proofs.Terminator
import AsmCatalog.Proofs.Transfer

namespace AsmCatalog

/-- The byte of a return. -/
def returnByte : UInt8 := 13

/-- A return before a newline, and any other byte as it is. -/
def withReturn (b : UInt8) : Bytes := if b = newline then [returnByte, newline] else [b]

/-- The bytes with a return before every newline. -/
def withReturns (bytes : Bytes) : Bytes := bytes.flatMap withReturn

theorem withReturns_cons (b : UInt8) (rest : Bytes) :
    withReturns (b :: rest) = withReturn b ++ withReturns rest := List.flatMap_cons

theorem withReturns_append (a b : Bytes) :
    withReturns (a ++ b) = withReturns a ++ withReturns b := List.flatMap_append

/-- Every newline adds a byte. -/
theorem length_withReturns (bytes : Bytes) :
    (withReturns bytes).length = bytes.length + bytes.count newline := by
  induction bytes with
  | nil => rfl
  | cons b rest ih =>
    rw [withReturns_cons, List.length_append, ih, withReturn, List.length_cons]
    by_cases hb : b = newline
    · rw [if_pos hb, hb, List.count_cons_self, List.length_cons, List.length_singleton]
      omega
    · rw [if_neg hb, List.count_cons_of_ne hb, List.length_singleton]
      omega

theorem withReturns_of_notMem {bytes : Bytes} (h : newline ∉ bytes) :
    withReturns bytes = bytes := by
  induction bytes with
  | nil => rfl
  | cons b rest ih =>
    rw [List.mem_cons, not_or] at h
    rw [withReturns_cons, withReturn, if_neg (Ne.symm h.1), ih h.2]
    rfl

/-! ### Lines -/

/-- The lines are the same, each with a return before its newline. -/
theorem splitLines_withReturns (bytes : Bytes) :
    splitLines (withReturns bytes) = (splitLines bytes).map withReturns := by
  induction bytes with
  | nil => rfl
  | cons b rest ih =>
    rw [withReturns_cons, withReturn, splitLines]
    by_cases hb : b = newline
    · have hreturn : returnByte ≠ newline := by decide
      rw [if_pos hb, if_pos hb, hb, List.cons_append, List.cons_append, List.nil_append, splitLines,
        if_neg hreturn, splitLines, if_pos rfl, ih]
      rfl
    · rw [if_neg hb, if_neg hb, List.singleton_append, splitLines, if_neg hb, ih]
      cases splitLines rest with
      | nil => rw [List.map_nil, List.map_singleton, withReturns_of_notMem (by simp [Ne.symm hb])]
      | cons line lines =>
        rw [List.map_cons, List.map_cons, withReturns_cons, withReturn, if_neg hb]
        rfl

/-- A line without a return before its newline has the same content with one. -/
theorem withoutTerminator_withReturns {bytes : Bytes} (h : ¬ [returnByte, newline] <:+: bytes) :
    withoutTerminator (withReturns (throughNewline bytes)) =
      withoutTerminator (throughNewline bytes) := by
  rcases throughNewline_cases bytes with ⟨front, hline, hfront⟩ | ⟨hline, hbytes⟩
  · have hreturn : ¬ [13] <:+ front := by
      rintro ⟨before, rfl⟩
      refine h (List.IsInfix.trans ?_ ( throughNewline_prefix bytes).isInfix)
      rw [hline, List.append_assoc]
      exact (List.suffix_append before _).isInfix
    have hreturns : withReturns [newline] = [13, newline] := rfl
    rw [hline, withReturns_append, withReturns_of_notMem hfront, hreturns,
      withoutTerminator_return, withoutTerminator_newline hreturn]
  · rw [hline, withReturns_of_notMem hbytes]

/-- A line in the source with returns: it begins further on by as many bytes as there are lines
before it. -/
def PhysicalLine.withReturns (l : PhysicalLine) : PhysicalLine :=
  { l with position := l.position + l.number.toNat, bytes := AsmCatalog.withReturns l.bytes }

theorem placeLines_withReturns {bytes : Bytes} (h : ¬ [returnByte, newline] <:+: bytes)
    {position number : Nat} (hstart : position = 0 → number = 0) :
    placeLines (position + number) number ((splitLines bytes).map withReturns) =
      (placeLines position number (splitLines bytes)).map PhysicalLine.withReturns := by
  induction hlines : splitLines bytes generalizing bytes position number with
  | nil => rfl
  | cons line rest ih =>
    have hbytes : bytes ≠ [] := by
      rintro rfl
      exact absurd hlines (List.cons_ne_nil _ _).symm
    rw [splitLines_eq_cons hbytes] at hlines
    obtain ⟨rfl, hrest⟩ := List.cons.inj hlines
    have htext : lineText (position + number) (withReturns (throughNewline bytes)) =
        lineText position (throughNewline bytes) := by
      have hposition : position + number = 0 ↔ position = 0 :=
        ⟨fun h => by omega, fun h => by rw [h, hstart h]⟩
      simp only [lineText, withoutTerminator_withReturns h, hposition]
    rw [List.map_cons, placeLines, placeLines, List.map_cons, htext]
    refine congrArg (_ :: ·) ?_
    rcases throughNewline_cases bytes with ⟨front, hline, hfront⟩ | ⟨hline, -⟩
    · -- The line has one newline, and one more byte in the other source.
      have hcount : (throughNewline bytes).count newline = 1 := by
        rw [hline, List.count_append, List.count_eq_zero.mpr hfront, List.count_singleton_self]
      have hplain : ¬ [returnByte, newline] <:+: bytes.drop (throughNewline bytes).length :=
        fun hpair => h (hpair.trans (List.drop_suffix ..).isInfix)
      have hpositive : 0 < (throughNewline bytes).length := by
        rw [hline, List.length_append]
        exact Nat.succ_pos _
      have hbehind := @ih _ hplain (position + (throughNewline bytes).length) (number + 1)
        (fun h => by omega) hrest
      rw [length_withReturns, hcount,
        show position + number + ((throughNewline bytes).length + 1) =
          position + (throughNewline bytes).length + (number + 1) by omega]
      exact hbehind
    · -- A line without a newline is the last one.
      rw [hline, List.drop_length] at hrest
      rw [← hrest]
      rfl

/-- The lines of the source with returns are the lines of the source, each at its new place. -/
theorem physicalLines_withReturns {bytes : Bytes} (h : ¬ [returnByte, newline] <:+: bytes) :
    physicalLines (withReturns bytes) 0 =
      (physicalLines bytes 0).map PhysicalLine.withReturns := by
  have hplaced := placeLines_withReturns h (fun _ => rfl : (0 : Nat) = 0 → 0 = 0)
  rw [physicalLines, physicalLines, linesFrom, linesFrom, List.drop_zero, List.drop_zero,
    splitLines_withReturns]
  exact hplaced

/-! ### Files -/

/-- Where the things of a file go when its source gets returns: further on by the number of
their line, and with a byte more for every newline in their range. -/
def Transfer.withReturns (f : FileContext) (bytes : Bytes) : Transfer where
  place position line := position + line.toNat
  span position length := length + ((bytes.drop position).take length).count newline
  stays := f.foreign
  span_add position a b := by
    rw [List.take_add, List.count_append, List.drop_drop]
    omega

theorem Transfer.takes_withReturns (f : FileContext) {bytes : Bytes}
    (h : ¬ [returnByte, newline] <:+: bytes) {l : PhysicalLine} (hl : l.FoundIn bytes) :
    (Transfer.withReturns f bytes).Takes l l.withReturns where
  text := rfl
  number := rfl
  position := rfl
  contentLength := by
    have hplain : ¬ [returnByte, newline] <:+: bytes.drop l.position :=
      fun hpair => h (hpair.trans (List.drop_suffix ..).isInfix)
    rw [hl.2]
    exact congrArg List.length (withoutTerminator_withReturns hplain)
  length := by
    have hbytes : l.bytes = throughNewline (bytes.drop l.position) := by
      rw [hl.2]
      rfl
    have hrange : (bytes.drop l.position).take l.bytes.length = l.bytes := by
      rw [hbytes]
      exact (List.prefix_iff_eq_take.mp ( throughNewline_prefix _)).symm
    exact (length_withReturns l.bytes).trans
      (congrArg (l.bytes.length + List.count newline ·) hrange.symm)

namespace Catalog

/-- A source that ends its lines with newlines alone, and the source in which each of them has
got a return, are imported alike: the files and the events are the same but for offsets, which
grow by the numbers of the lines, and for lengths, which grow by the newlines in the range.
Comments keep their lengths. -/
theorem ofSource_withReturns (path : SourcePath) (mode : Mode) (includes : List Catalog)
    {bytes : Bytes} (h : ¬ [returnByte, newline] <:+: bytes) :
    ∃ (file file' : Catalog) (events : List Event),
      ofSource { mode, includes } path (.ofBytes bytes) 0 false = ⟨.ok file, events, false⟩ ∧
      ofSource { mode, includes } path (.ofBytes (withReturns bytes)) 0 false =
        ⟨.ok file', events.map (Event.moved (.withReturns ⟨path, mode, includes⟩ bytes)), false⟩ ∧
      file.MovedTo (.withReturns ⟨path, mode, includes⟩ bytes) file' := by
  have hfound : ∀ l ∈ physicalLines bytes 0, l.FoundIn bytes :=
    fun _ => (laidOut_linesFrom bytes 0 0).found_of_mem
  exact ofSource_moved (f := ⟨path, mode, includes⟩) rfl (physicalLines_withReturns h)
    fun l hl => Transfer.takes_withReturns _ h (hfound l hl)

/-- A comment, a definition and its call, and the call of a macro of another file in a last
line without a newline. -/
def mixedSource : Bytes :=
  Utf8.encode
    [';', 'é', '\n', 'm', ' ', 'm', 'a', 'c', 'r', 'o', '\n', '\n', 'v', ' ', 'e', 'q', 'u', ' ',
      '1', '\n', 'e', 'n', 'd', 'm', '\n', 'm', '\n', '\r', 'k']

theorem ofSource_withReturns_mixedSource :
    ¬ [returnByte, newline] <:+: mixedSource ∧
    ∃ (file file' : Catalog) (events : List Event),
      ofSource { includes := [includedFile] } ⟨['a']⟩ (.ofBytes mixedSource) 0 false =
        ⟨.ok file, events, false⟩ ∧
      ofSource { includes := [includedFile] } ⟨['a']⟩ (.ofBytes (withReturns mixedSource)) 0 false =
        ⟨.ok file', events.map
          (Event.moved (.withReturns ⟨⟨['a']⟩, .legacy, [includedFile]⟩ mixedSource)), false⟩ ∧
      file.MovedTo (.withReturns ⟨⟨['a']⟩, .legacy, [includedFile]⟩ mixedSource) file' ∧
      file.places =
        [(0, 0, 3, []), (4, 1, 22, []), (13, 3, 8, []), (21, 4, 5, []), (26, 5, 2, [13, 21]),
          (28, 6, 2, [])] ∧
      file'.places =
        [(0, 0, 3, []), (5, 1, 26, []), (16, 3, 9, []), (25, 4, 6, []), (31, 5, 3, [16, 25]),
          (34, 6, 2, [])] := by
  have hplain : ¬ [returnByte, newline] <:+: mixedSource := by decide +kernel
  obtain ⟨file, file', events, hfile, hfile', hmoved⟩ :=
    ofSource_withReturns ⟨['a']⟩ .legacy [includedFile] hplain
  refine ⟨hplain, file, file', events, hfile, hfile', hmoved, ?_, ?_⟩
  · have hplaces : (ofSource { includes := [includedFile] } ⟨['a']⟩ (.ofBytes mixedSource) 0
        false).result.toOption.map places =
        some [(0, 0, 3, []), (4, 1, 22, []), (13, 3, 8, []), (21, 4, 5, []), (26, 5, 2, [13, 21]),
          (28, 6, 2, [])] := by
      decide +kernel
    rw [hfile] at hplaces
    exact Option.some.inj hplaces
  · have hplaces : (ofSource { includes := [includedFile] } ⟨['a']⟩
        (.ofBytes (withReturns mixedSource)) 0 false).result.toOption.map places =
        some [(0, 0, 3, []), (5, 1, 26, []), (16, 3, 9, []), (25, 4, 6, []), (31, 5, 3, [16, 25]),
          (34, 6, 2, [])] := by
      decide +kernel
    rw [hfile'] at hplaces
    exact Option.some.inj hplaces

end Catalog

end AsmCatalog
