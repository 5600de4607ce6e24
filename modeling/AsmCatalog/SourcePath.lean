/-
Paths of source files.

A path keeps its spelling, but it is compared part by part: repeated and trailing
slashes and inner `.` parts carry no meaning, while `..` and a leading `.` do.

Main definitions:
* `PathPart`, `SourcePath.parts` — the parts of a path;
* `SourcePath.same` and the order instance — comparison of paths by their parts;
* `SourcePath.fileName?`, `SourcePath.stem` — the last part, and it without its
  extension.
-/
import AsmCatalog.Text.Basic

namespace AsmCatalog

/-- One part of a path. -/
inductive PathPart where
  | root
  | here
  | parent
  | name (text : Text)
deriving DecidableEq, Inhabited

namespace PathPart

/-- The kinds of parts in their order. -/
def rank : PathPart → Nat
  | root => 0
  | here => 1
  | parent => 2
  | name _ => 3

/-- The name of a part that has one. -/
def label : PathPart → Text
  | name text => text
  | _ => []

/-- Parts are ordered by kind, and names by their characters. -/
instance : Ord PathPart where
  compare a b := (compare a.rank b.rank).then (compare a.label b.label)

/-- The part that a piece between slashes writes, if it carries meaning after the
start of a path. -/
def ofPiece? (piece : Text) : Option PathPart :=
  if piece = [] ∨ piece = ['.'] then none
  else if piece = ['.', '.'] then some parent
  else some (name piece)

end PathPart

/-- The path of a source file, as it was spelled. -/
structure SourcePath where
  text : Text
deriving DecidableEq, Inhabited

namespace SourcePath

/-- The parts of a path.  The first piece is empty in a path from the root, and a
`.` there is kept. -/
def parts (path : SourcePath) : List PathPart :=
  if path.text = [] then []
  else
    match path.text.splitOn '/' with
    | [] => []
    | first :: rest =>
      let start :=
        if first = [] then [PathPart.root]
        else if first = ['.'] then [PathPart.here]
        else (PathPart.ofPiece? first).toList
      start ++ rest.filterMap PathPart.ofPiece?

/-- Whether two spellings have the same parts. -/
def same (a b : SourcePath) : Bool := a.parts == b.parts

/-- Paths are ordered part by part. -/
instance : Ord SourcePath where
  compare a b := compare a.parts b.parts

/-- The last part of a path, if it is a name. -/
def fileName? (path : SourcePath) : Option Text :=
  match path.parts.getLast? with
  | some (.name text) => some text
  | _ => none

/-- A file name without its extension, which begins at the last dot.  A name whose
only dot comes first has none. -/
def withoutExtension (name : Text) : Text :=
  match name.reverse.dropWhile (· ≠ '.') with
  | [] | ['.'] => name
  | _ :: stem => stem.reverse

/-- The file name without its extension, empty if the path ends in no name. -/
def stem (path : SourcePath) : Text := (path.fileName?.map withoutExtension).getD []

@[simp] theorem same_refl (path : SourcePath) : path.same path = true := by simp [same]

end SourcePath

end AsmCatalog
