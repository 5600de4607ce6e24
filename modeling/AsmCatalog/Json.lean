/-
JSON documents, and how they are laid out.

Fields keep the order in which they are given.

Main definitions:
* `Json` — a document;
* `Json.quoted` — a string with its escapes;
* `Json.pretty` — the layout with one item a line, two spaces for each level.
-/
import AsmCatalog.Text.Number

namespace AsmCatalog

/-- A JSON document. -/
inductive Json where
  | null
  | bool (b : Bool)
  | int (n : Int)
  | text (t : Text)
  | list (items : List Json)
  | object (fields : List (Text × Json))

namespace Json

/-- The value of an optional text. -/
def ofText? : Option Text → Json
  | none => null
  | some t => text t

/-- What encloses a string. -/
def quoteMark : Char := '\x22'

/-- The digits of a control character below U+0020, which has no short escape. -/
def controlEscape (c : Char) : Text :=
  ['\\', 'u'] ++ Text.padLeft '0' 4 (Nat.toDigits 16 c.toNat)

/-- A character inside a string.  Only quotes, backslashes and the controls below U+0020
are escaped. -/
def escape (c : Char) : Text :=
  if c = quoteMark then ['\\', quoteMark]
  else if c = '\\' then ['\\', '\\']
  else if c = '\x08' then ['\\', 'b']
  else if c = '\x0C' then ['\\', 'f']
  else if c = '\n' then ['\\', 'n']
  else if c = '\r' then ['\\', 'r']
  else if c = '\t' then ['\\', 't']
  else if c.toNat < 0x20 then controlEscape c
  else [c]

/-- A string between its quotes. -/
def quoted (t : Text) : Text := quoteMark :: (t.flatMap escape ++ [quoteMark])

/-- A new line at a level. -/
def newLine (level : Nat) : Text := '\n' :: List.replicate (2 * level) ' '

mutual

/-- The layout of a document at a level. -/
def layout (level : Nat) : Json → Text
  | null => ['n', 'u', 'l', 'l']
  | bool true => ['t', 'r', 'u', 'e']
  | bool false => ['f', 'a', 'l', 's', 'e']
  | int n => Text.ofInt n
  | text t => quoted t
  | list [] => ['[', ']']
  | list (item :: rest) =>
    '[' :: (newLine (level + 1) ++ layout (level + 1) item ++ layoutItems (level + 1) rest ++
      newLine level ++ [']'])
  | object [] => ['\x7b', '\x7d']
  | object ((name, item) :: rest) =>
    '\x7b' :: (newLine (level + 1) ++ quoted name ++ [':', ' '] ++ layout (level + 1) item ++
      layoutFields (level + 1) rest ++ newLine level ++ ['\x7d'])

/-- The items behind the first one. -/
def layoutItems (level : Nat) : List Json → Text
  | [] => []
  | item :: rest => ',' :: (newLine level ++ layout level item ++ layoutItems level rest)

/-- The fields behind the first one. -/
def layoutFields (level : Nat) : List (Text × Json) → Text
  | [] => []
  | (name, item) :: rest =>
    ',' :: (newLine level ++ quoted name ++ [':', ' '] ++ layout level item ++
      layoutFields level rest)

end

/-- The layout of a whole document. -/
def pretty (document : Json) : Text := layout 0 document

end Json

end AsmCatalog
