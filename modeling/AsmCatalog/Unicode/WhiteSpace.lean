/-
The characters with the White_Space property.

Main definitions:
* `Unicode.whiteSpace` — the property as intervals;
* `Unicode.isWhiteSpace` — the test on a character.
-/
import AsmCatalog.Unicode.Intervals

namespace AsmCatalog.Unicode

/-- The scalar values with the White_Space property. -/
def whiteSpace : List (Nat × Nat) :=
  [(0x9, 0xD), (0x20, 0x20), (0x85, 0x85), (0xA0, 0xA0), (0x1680, 0x1680), (0x2000, 0x200A),
  (0x2028, 0x2029), (0x202F, 0x202F), (0x205F, 0x205F), (0x3000, 0x3000)]

/-- Whether `c` is white space: blanks, line and paragraph separators and the
controls from tab to carriage return. -/
def isWhiteSpace (c : Char) : Bool := covers whiteSpace c.toNat

end AsmCatalog.Unicode
