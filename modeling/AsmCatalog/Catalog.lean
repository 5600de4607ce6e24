/-
Catalogs: what is known of one source file.

Main definitions:
* `Catalog` — the path of a file, its top-level chunks and its constants;
* `Catalog.add`, `Catalog.declare` — how a catalog grows;
* `Catalog.comments`, `Catalog.statements`, `Catalog.macros`, `Catalog.invocations` —
  what its top-level chunks hold;
* `Catalog.constant?`, `Catalog.numericValue` — questions about constants;
* `visibleCatalogs`, `visibleMacros` — what the statements of a file can see.
-/
import AsmCatalog.ChunkSet
import AsmCatalog.ConstantValue

namespace AsmCatalog

/-- The path of a source file, its top-level chunks, and its constants in the order in
which they were declared. -/
structure Catalog where
  path : SourcePath
  chunks : ChunkSet := .empty
  constants : List Constant := []
deriving Inhabited

namespace Catalog

/-- The catalog with a further chunk. -/
def add (f : Catalog) (c : Chunk) : Catalog := { f with chunks := f.chunks.insert c }

/-- The catalog with a further constant, unless one of the same place is there. -/
def declare (f : Catalog) (c : Constant) : Catalog :=
  if f.constants.any fun d => d.key.same c.key then f
  else { f with constants := f.constants ++ [c] }

/-- The name of the file without its extension. -/
def fileName (f : Catalog) : Text := f.path.stem

/-- The top-level chunks in the order of their lines. -/
def byLine (f : Catalog) : List Chunk := f.chunks.toList.mergeSort fun a b => a.line ≤ b.line

/-- The texts of the comments. -/
def comments (f : Catalog) : List Text := f.chunks.filterMap Chunk.comment?

/-- The statements. -/
def statements (f : Catalog) : List (Statement Chunk) := f.chunks.filterMap Chunk.statement?

/-- The chunks that hold statements, in the order of their lines. -/
def statementsByLine (f : Catalog) : List Chunk :=
  (f.chunks.toList.filter (·.statement?.isSome)).mergeSort fun a b => a.line ≤ b.line

/-- The macros. -/
def macros (f : Catalog) : List (Macro Chunk) := f.chunks.filterMap Chunk.definition?

/-- The calls of macros. -/
def invocations (f : Catalog) : List (Invocation Chunk) :=
  f.statements.filterMap Statement.invocation?

/-- The first constant with exactly this name. -/
def constant? (f : Catalog) (name : Text) : Option Constant :=
  f.constants.find? (·.name == name)

/-- Whether there is a constant with exactly this name. -/
def hasConstant (f : Catalog) (name : Text) : Bool := f.constants.any (·.name == name)

end Catalog

/-- The constants of several files, in order. -/
def declaredIn (files : List Catalog) : List Constant := files.flatMap (·.constants)

/-- The value of a constant, where names stand for the constants of the includes. -/
def Constant.numericValue (c : Constant) (includes : List Catalog) : Int :=
  resolve (declaredIn includes) c.value

/-- The files whose path is none of `seen`, and of several with one path the first. -/
def firstOfPaths (seen : List SourcePath) : List Catalog → List Catalog
  | [] => []
  | f :: rest =>
    if seen.any (·.same f.path) then firstOfPaths seen rest
    else f :: firstOfPaths (f.path :: seen) rest

/-- The files that a statement of `current` sees: the includes in order and then the
file itself, one for each path. -/
def visibleCatalogs (includes : List Catalog) (current : Catalog) : List Catalog :=
  firstOfPaths [] (includes ++ [current])

/-- The macros of several files, in order. -/
def visibleMacros (files : List Catalog) : List (Macro Chunk) := files.flatMap (·.macros)

end AsmCatalog
