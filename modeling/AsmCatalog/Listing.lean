/-
Listings of catalogs: a table with one row for each top-level chunk.

Main definitions:
* `Chunk.detail`, `Chunk.row` — what a row says of a chunk, and the row;
* `Catalog.listing` — the title, the head of the table, the rows and the totals.
-/
import AsmCatalog.Catalog
import AsmCatalog.Text.Number

namespace AsmCatalog

/-- An argument, behind the name of its parameter if there is one. -/
def Argument.detail (a : Argument) : Text :=
  match a.name with
  | some name => name ++ ['='] ++ a.content
  | none => a.content

/-- What a form says. -/
def Form.detail {β : Type} : Form β → Text
  | .equate e => e.name ++ [' ', '=', ' '] ++ e.value
  | .invoke i =>
    i.callee.name ++ ['!', ' '] ++ [',', ' '].intercalate (i.arguments.map Argument.detail)

/-- What a statement says: its form, or its text if it has none. -/
def Statement.detail {β : Type} (s : Statement β) : Text :=
  match s.form with
  | some form => form.detail
  | none => Text.trim s.text

/-- What a macro definition says: the name, the parameters and the size of the body. -/
def Macro.detail {β : Type} (m : Macro β) : Text :=
  if m.valid then
    m.name ++ ['('] ++ [',', ' '].intercalate m.parameters ++ [')', ' '] ++
      Text.ofNat m.body.length ++ " body lines".toList
  else "<invalid macro header>".toList

namespace Chunk

/-- What a row says of a chunk. -/
def detail (c : Chunk) : Text :=
  match c.content with
  | .comment text => text
  | .statement s => s.detail
  | .macroDef m => m.detail

/-- The row of a chunk: its line, its position in hexadecimal, its length and its kind,
each filled up to the width of its column, and what it says. -/
def row (c : Chunk) : Text :=
  [' ', ' '].intercalate
    [Text.padLeft ' ' 4 (Text.ofInt c.line), Text.padLeft '0' 6 (Text.ofNatHex c.position),
      Text.padLeft ' ' 4 (Text.ofNat c.length), Text.padRight ' ' 7 c.kind.word.toList, c.detail]

end Chunk

namespace Catalog

/-- The head of the table. -/
def listingHead : List Text :=
  ["LINE  POS     LEN   KIND     DETAIL".toList, "----  ------  ----  -------  ------".toList]

/-- The totals of a listing. -/
def totals (f : Catalog) : Text :=
  Text.ofNat f.chunks.size ++ " chunks, ".toList ++ Text.ofNat f.constants.length ++
    " constants".toList

/-- The lines of a listing. -/
def listingLines (f : Catalog) : List Text :=
  f.path.text :: listingHead ++ f.byLine.map Chunk.row ++ [f.totals]

/-- A listing, each line with its end. -/
def listing (f : Catalog) : Text := f.listingLines.flatMap (· ++ ['\n'])

end Catalog

end AsmCatalog
