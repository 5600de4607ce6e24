/-
Reports of includes that were expected but are not there.

Main definitions:
* `missingIncludes` — the expected names that no include has;
* `includeReport?` — the report, if a name is missing.
-/
import AsmCatalog.Catalog

namespace AsmCatalog

/-- Whether the path of a file ends in exactly this name. -/
def Catalog.isNamed (f : Catalog) (name : Text) : Bool := f.path.fileName? == some name

/-- The expected names that no include has. -/
def missingIncludes (expected : List Text) (includes : List Catalog) : List Text :=
  expected.filter fun name => !includes.any (·.isNamed name)

/-- The report on missing includes, if there are any. -/
def includeReport? (expected : List Text) (includes : List Catalog) : Option Text :=
  match missingIncludes expected includes with
  | [] => none
  | missing =>
    some ("The following include files are expected but were not supplied:\n".toList ++
      missing.flatMap (fun name => [' ', ' '] ++ name ++ ['\n']) ++
      "Symbols they define will not be resolved.".toList)

end AsmCatalog
