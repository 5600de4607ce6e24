/-
The files that paths lead to, from a working directory.

A path is walked piece by piece.  Each step must start in a directory; `..` leads to
the directory above, also above the working directory, where nothing else is known
but what has been stored there.

Main definitions:
* `Location` — where a file or a directory stands;
* `FileTree` — what has been stored, and `FileTree.get?`, what stands at a location;
* `FileTree.walk` — the location that the pieces of a path lead to;
* `FileTree.openPath` — the source at a path, or why it cannot be opened;
* `FileTree.store?` — the tree with a file at a path, whose directories are made.
-/
import AsmCatalog.Source
import AsmCatalog.SourcePath

namespace AsmCatalog

/-- A directory that is always there: the root, or the directory some levels above the
working directory. -/
inductive Base where
  | root
  | above (levels : Nat)
deriving DecidableEq

/-- Where a file or a directory stands: the names that lead there from a base. -/
structure Location where
  base : Base
  names : List Text
deriving DecidableEq

namespace Location

/-- The working directory. -/
def working : Location := ⟨.above 0, []⟩

/-- The root, which is its own parent. -/
def root : Location := ⟨.root, []⟩

/-- What a directory holds under a name. -/
def child (here : Location) (name : Text) : Location := ⟨here.base, here.names ++ [name]⟩

/-- The directory above. -/
def parent : Location → Location
  | ⟨.above levels, []⟩ => ⟨.above (levels + 1), []⟩
  | ⟨base, names⟩ => ⟨base, names.dropLast⟩

/-- Where one piece of a path leads from a directory. -/
def follow (here : Location) (piece : Text) : Location :=
  if piece = [] ∨ piece = ['.'] then here
  else if piece = ['.', '.'] then here.parent
  else here.child piece

end Location

/-- What stands at a location. -/
inductive Entry where
  | directory
  | file (bytes : Bytes)

/-- The entries that have been stored, the last of them first. -/
structure FileTree where
  entries : List (Location × Entry)

/-- Why a path cannot be opened. -/
inductive OpenError where
  | missing
  | throughFile
  | nameTooLong
  | nulInName
deriving DecidableEq

/-- The wording of an error. -/
def OpenError.message : OpenError → Text
  | missing => "No such file or directory (os error 2)".toList
  | throughFile => "Not a directory (os error 20)".toList
  | nameTooLong => "File name too long (os error 36)".toList
  | nulInName => "file name contained an unexpected NUL byte".toList

namespace FileTree

/-- Nothing but the bases. -/
def empty : FileTree := ⟨[]⟩

/-- The tree with an entry that replaces what stood at its location. -/
def add (tree : FileTree) (there : Location) (entry : Entry) : FileTree :=
  ⟨(there, entry) :: tree.entries⟩

/-- What stands at a location.  The bases are directories. -/
def get? (tree : FileTree) (there : Location) : Option Entry :=
  if there.names = [] then some .directory
  else (tree.entries.find? (·.1 = there)).map (·.2)

/-- The location that one piece of a path leads to. -/
def enter (tree : FileTree) (here : Location) (piece : Text) : Except OpenError Location :=
  match tree.get? here with
  | none => .error .missing
  | some (.file _) => .error .throughFile
  | some .directory =>
    if 255 < (Utf8.encode piece).length then .error .nameTooLong
    else if (tree.get? (here.follow piece)).isSome then .ok (here.follow piece)
    else .error .missing

/-- The location that the pieces of a path lead to, one after another. -/
def walk (tree : FileTree) (here : Location) : List Text → Except OpenError Location
  | [] => .ok here
  | piece :: rest => do tree.walk (← tree.enter here piece) rest

/-- Where a path begins, and its pieces. -/
def pieces (path : SourcePath) : Except OpenError (Location × List Text) :=
  if path.text = [] then .error .missing
  else if '\x00' ∈ path.text then .error .nulInName
  else if 4095 < (Utf8.encode path.text).length then .error .nameTooLong
  else
    let start := if path.text.head? = some '/' then .root else .working
    .ok (start, path.text.splitOn '/')

/-- The entry that a path leads to. -/
def lookUp (tree : FileTree) (path : SourcePath) : Except OpenError Entry := do
  let (start, way) ← pieces path
  match tree.get? (← tree.walk start way) with
  | some entry => .ok entry
  | none => .error .missing

/-- A directory, which can be opened but not read. -/
def directorySource : Source :=
  { bytes := [], fault := some ⟨0, "Is a directory (os error 21)".toList⟩ }

/-- The source at a path, or the wording of the reason why it cannot be opened. -/
def openPath (tree : FileTree) (path : SourcePath) : Except Text Source :=
  match tree.lookUp path with
  | .ok (.file bytes) => .ok (.ofBytes bytes)
  | .ok .directory => .ok directorySource
  | .error e => .error e.message

/-- The location that the pieces of a path lead to, and the tree in which the
directories that were missing on the way have been made. -/
def makeWay (tree : FileTree) (here : Location) :
    List Text → Except OpenError (FileTree × Location)
  | [] => .ok (tree, here)
  | piece :: rest =>
    match tree.enter here piece with
    | .ok there => tree.makeWay there rest
    | .error .missing =>
      (tree.add (here.follow piece) .directory).makeWay (here.follow piece) rest
    | .error e => .error e

/-- The tree with a file at a path.  Nothing can be stored where the way leads through a
file, where a directory stands, or under a name that is too long. -/
def store? (tree : FileTree) (path : SourcePath) (bytes : Bytes) : Option FileTree := do
  let (start, way) ← (pieces path).toOption
  let (tree, here) ← (tree.makeWay start way.dropLast).toOption
  let there := here.follow (way.getLastD [])
  match tree.enter here (way.getLastD []), tree.get? there with
  | .ok _, some (.file _) | .error .missing, none => some (tree.add there (.file bytes))
  | _, _ => none

end FileTree

end AsmCatalog
