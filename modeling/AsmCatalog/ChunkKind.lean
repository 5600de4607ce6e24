/-
The kinds of chunks, and how the first line of a chunk tells its kind.

Main definitions:
* `ChunkKind` — comment, macro definition or statement;
* `ChunkKind.ofHeader` — the kind of a chunk that begins with a given line;
* `ChunkKind.classify` — the same where there may be no line.
-/
import AsmCatalog.MacroHeader

namespace AsmCatalog

/-- The kinds of chunks. -/
inductive ChunkKind where
  | comment
  | macroDef
  | statement
deriving DecidableEq, Inhabited

/-- Why a chunk has no kind. -/
inductive HeaderError where
  | absent
deriving DecidableEq

/-- The wording of the error. -/
def HeaderError.message : HeaderError → String
  | absent => "chunk header is empty"

namespace ChunkKind

/-- The word for a kind in listings, summaries and events. -/
def word : ChunkKind → String
  | comment => "comment"
  | macroDef => "macro"
  | statement => "line"

/-- A chunk is a comment if its first line begins with a semicolon, a macro definition
if that line is a macro header, and a statement otherwise. -/
def ofHeader (line : Text) : ChunkKind :=
  match Text.trimStart (Text.expandTabs line) with
  | ';' :: _ => comment
  | header => if MacroHeader.recognized header then macroDef else statement

/-- The kind of a chunk by its first line, if there is one. -/
def classify : Option Text → Except HeaderError ChunkKind
  | none => .error .absent
  | some line => .ok (ofHeader line)

end ChunkKind

end AsmCatalog
