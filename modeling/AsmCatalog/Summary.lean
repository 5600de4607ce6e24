/-
Summaries of catalogs as JSON documents.

Main definitions:
* `Chunk.summary` — a chunk with everything in its body, blank lines left out;
* `Catalog.summary` — the chunks of a file by line, and its constants.
-/
import AsmCatalog.Catalog
import AsmCatalog.Json

namespace AsmCatalog

open Json (ofText?)

/-- A field of a summary. -/
def field (name : String) (value : Json) : Text × Json := (name.toList, value)

/-- An argument with the name of its parameter. -/
def Argument.summary (a : Argument) : Json :=
  .object [field "content" (.text a.content), field "name" (ofText? a.name)]

/-- What a statement is recognized as. -/
def Form.summary {β : Type} : Form β → Json
  | .equate e => .object
      [field "type" (.text "define".toList), field "name" (.text e.name),
        field "value" (.text e.value)]
  | .invoke i => .object
      [field "type" (.text "invoke".toList), field "macro_name" (.text i.callee.name),
        field "parameters" (.list (i.arguments.map Argument.summary))]

/-- The fields of a statement.  An absent label or form has none. -/
def Statement.summaryFields {β : Type} (s : Statement β) : List (Text × Json) :=
  [field "text" (.text s.text)] ++ (s.label.map fun l => field "label" (.text l)).toList ++
    (s.form.map fun f => field "structure" f.summary).toList

/-- The fields that every chunk has. -/
def Chunk.placeFields (kind : ChunkKind) (line : Int) (position length : Nat) :
    List (Text × Json) :=
  [field "kind" (.text kind.word.toList), field "line" (.int line),
    field "position" (.int position), field "length" (.int length)]

mutual

/-- A chunk with everything in its body. -/
def Chunk.summary : Chunk → Json
  | ⟨_, position, line, length, .comment text⟩ =>
    .object (Chunk.placeFields .comment line position length ++ [field "text" (.text text)])
  | ⟨_, position, line, length, .statement s⟩ =>
    .object (Chunk.placeFields .statement line position length ++ s.summaryFields)
  | ⟨_, position, line, length, .macroDef ⟨name, parameters, body, valid⟩⟩ =>
    .object (Chunk.placeFields .macroDef line position length ++
      [field "name" (.text name), field "parameters" (.list (parameters.map .text)),
        field "valid" (.bool valid), field "body" (.list (summarizeBody body))])

/-- The chunks of a body. -/
def summarizeBody : List (Option Chunk) → List Json
  | [] => []
  | none :: rest => summarizeBody rest
  | some c :: rest => c.summary :: summarizeBody rest

end

/-- A constant with the line that declares it. -/
def Constant.summary (c : Constant) : Json :=
  .object [field "name" (.text c.name), field "value" (.text c.value), field "line" (.int c.line)]

/-- The chunks of a file by line, and its constants. -/
def Catalog.summary (f : Catalog) : Json :=
  .object [field "path" (.text f.path.text), field "chunks" (.list (f.byLine.map Chunk.summary)),
    field "constants" (.list (f.constants.map Constant.summary))]

end AsmCatalog
