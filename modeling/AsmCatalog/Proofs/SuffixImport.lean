/-
An import that begins in the midst of a source.

The bytes before the place where an import begins are never looked at, not even those of a
character that is cut there.  So the import is that of the bytes from there on, taken as a
source of their own, and all that it makes stands as much further on as bytes have been left
out.  Only a byte order mark makes a difference: it is hidden at the start of a source and
nowhere else.

Main definition:
* `Transfer.onward` — everything goes so many bytes further on.

Main statement:
* `Catalog.ofSource_drop` — an import that begins at an offset is that of the bytes from
  there on.
-/
import AsmCatalog.Proofs.Concatenation
import AsmCatalog.Proofs.Transfer

namespace AsmCatalog

/-- Everything of a file goes so many bytes further on and keeps its length. -/
def Transfer.onward (f : FileContext) (bytes : Nat) : Transfer where
  place position _ := position + bytes
  span _ length := length
  stays := f.foreign
  span_add _ _ _ := rfl

/-- The lines of the bytes from an offset on are the lines from there on, each at its new
place. -/
theorem physicalLines_drop (path : SourcePath) {bytes : Bytes} {start : Nat}
    (hmark : ¬ byteOrderMark <+: bytes.drop start) :
    physicalLines bytes start =
      (physicalLines (bytes.drop start) 0).map (PhysicalLine.relocated ⟨path, start, 0⟩) := by
  have hmoved := @placeLines_relocated ⟨path, start, 0⟩ 0 (splitLines (bytes.drop start))
    (Or.inr (Or.inr fun line hline hstart =>
      hmark (hstart.trans (prefix_of_head?_splitLines hline))))
    (fun _ => ne_nil_of_mem_splitLines) 0
  rw [physicalLines, physicalLines, linesFrom, linesFrom, List.drop_zero, ← hmoved, Nat.zero_add]
  rfl

theorem Transfer.takes_onward (f : FileContext) (bytes : Nat) (path : SourcePath)
    (l : PhysicalLine) :
    (Transfer.onward f bytes).Takes l (l.relocated ⟨path, bytes, 0⟩) :=
  ⟨rfl, Int.add_zero _, rfl, rfl, rfl⟩

namespace Catalog

/-- An import that begins at an offset, whatever is cut there, is the import of the bytes from
there on, where everything stands so much further on.  They must not begin with a mark, which
would be hidden from a source of its own. -/
theorem ofSource_drop (path : SourcePath) (mode : Mode) (includes : List Catalog) {bytes : Bytes}
    {start : Nat} (hmark : ¬ byteOrderMark <+: bytes.drop start) :
    ∃ (file file' : Catalog) (events : List Event),
      ofSource { mode, includes } path (.ofBytes (bytes.drop start)) 0 false =
        ⟨.ok file, events, false⟩ ∧
      ofSource { mode, includes } path (.ofBytes bytes) start false =
        ⟨.ok file', events.map (Event.moved (.onward ⟨path, mode, includes⟩ start)), false⟩ ∧
      file.MovedTo (.onward ⟨path, mode, includes⟩ start) file' := by
  have hlines := physicalLines_drop path hmark
  have htakes := Transfer.takes_onward ⟨path, mode, includes⟩ start path
  exact ofSource_moved (f := ⟨path, mode, includes⟩) rfl hlines fun l _ => htakes l

/-- A definition and its call, behind a character of two bytes, and the call of a macro of
another file. -/
def accentedSource : Bytes :=
  Utf8.encode
    ['é', '\n', 'm', ' ', 'm', 'a', 'c', 'r', 'o', '\n', '\t', 'v', ' ', 'e', 'q', 'u', ' ', '1',
      '\n', '\t', 'e', 'n', 'd', 'm', '\n', '\t', 'm', '\n', '\t', 'k', '\n']

theorem ofSource_drop_accentedSource :
    ¬ byteOrderMark <+: accentedSource.drop 1 ∧
    ∃ (file file' : Catalog) (events : List Event),
      ofSource { includes := [includedFile] } ⟨['a']⟩ (.ofBytes (accentedSource.drop 1)) 0 false =
        ⟨.ok file, events, false⟩ ∧
      ofSource { includes := [includedFile] } ⟨['a']⟩ (.ofBytes accentedSource) 1 false =
        ⟨.ok file', events.map
          (Event.moved (.onward ⟨⟨['a']⟩, .legacy, [includedFile]⟩ 1)), false⟩ ∧
      file.MovedTo (.onward ⟨⟨['a']⟩, .legacy, [includedFile]⟩ 1) file' ∧
      file'.places =
        [(1, 0, 2, []), (3, 1, 23, []), (11, 2, 9, []), (20, 3, 6, []), (26, 4, 3, [11, 20]),
          (29, 5, 3, [])] := by
  have hmark : ¬ byteOrderMark <+: accentedSource.drop 1 := by decide +kernel
  obtain ⟨file, file', events, hfile, hfile', hmoved⟩ :=
    ofSource_drop ⟨['a']⟩ .legacy [includedFile] hmark
  refine ⟨hmark, file, file', events, hfile, hfile', hmoved, ?_⟩
  have hplaces : (ofSource { includes := [includedFile] } ⟨['a']⟩ (.ofBytes accentedSource) 1
      false).result.toOption.map places =
        some [(1, 0, 2, []), (3, 1, 23, []), (11, 2, 9, []), (20, 3, 6, []), (26, 4, 3, [11, 20]),
          (29, 5, 3, [])] := by
    decide +kernel
  rw [hfile'] at hplaces
  exact Option.some.inj hplaces

end Catalog

end AsmCatalog
