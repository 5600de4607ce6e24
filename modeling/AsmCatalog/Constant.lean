/-
Constants: the values that equates declare.

Main definition:
* `Constant` — the name and value of an equate, and the place of its line.
-/
import AsmCatalog.Chunk
import AsmCatalog.Literal

namespace AsmCatalog

/-- The name and value of an equate, and the place of the line that declares it. -/
structure Constant where
  name : Text
  value : Text
  path : SourcePath
  position : Nat
  length : Nat
  line : Int
deriving DecidableEq, Inhabited

namespace Constant

/-- The key of the chunk that declares the constant. -/
def key (c : Constant) : ChunkKey := ⟨c.path, c.position, c.length⟩

/-- The value read as a literal. -/
def literalValue (c : Constant) : Int := Literal.value c.value

/-- The constant that a chunk declares. -/
def ofChunk? (c : Chunk) : Option Constant :=
  c.statement?.bind fun s =>
    s.equate?.map fun e => ⟨e.name, e.value, c.path, c.position, c.length, c.line⟩

end Constant

end AsmCatalog
