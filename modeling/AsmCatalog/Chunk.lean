/-
Chunks: the classified units of a source.

A chunk is a comment, a statement, or a macro definition with everything in its body,
which consists of chunks again.  A statement that invokes a macro carries that macro.
The records below are therefore stated for any type `β` of body entries, and `Chunk`
ties the knot.

Main definitions:
* `Macro`, `Invocation`, `Equate`, `Form`, `Statement`, `Content` — what a chunk holds;
* `Chunk` — a content with its place;
* `ChunkKey` — the identity of a chunk, with its order;
* `Chunk.body`, `Chunk.descendant?` — the chunks inside a chunk.

Main statement:
* `Chunk.induction` — what holds of a chunk whenever it holds of its body holds of all.
-/
import AsmCatalog.ChunkKind
import AsmCatalog.SourcePath

namespace AsmCatalog

/-- A macro definition.  Its body has an entry for every chunk, and an empty one for
every blank line.  It is invalid if its header was malformed. -/
structure Macro (β : Type) where
  name : Text
  parameters : List Text
  body : List (Option β)
  valid : Bool
deriving Inhabited

/-- What a call passes, with the declared name of the parameter that receives it. -/
structure Argument where
  content : Text
  name : Option Text
deriving DecidableEq, Inhabited

/-- The call of a macro. -/
structure Invocation (β : Type) where
  callee : Macro β
  arguments : List Argument
deriving Inhabited

/-- A name that is equated to a value. -/
structure Equate where
  name : Text
  value : Text
deriving DecidableEq, Inhabited

/-- What a statement is recognized as. -/
inductive Form (β : Type) where
  | equate (e : Equate)
  | invoke (i : Invocation β)

/-- A statement line: its text, the label in front of it, and what it is recognized
as, if anything. -/
structure Statement (β : Type) where
  text : Text
  label : Option Text
  form : Option (Form β)
deriving Inhabited

/-- What a chunk holds. -/
inductive Content (β : Type) where
  | comment (text : Text)
  | statement (s : Statement β)
  | macroDef (m : Macro β)

/-- A unit of a source: the file, the offset and the number of its first line, the
bytes that it covers, and what it holds. -/
structure Chunk where
  path : SourcePath
  position : Nat
  line : Int
  length : Nat
  content : Content Chunk

/-- The identity of a chunk: the file and the bytes that it covers. -/
structure ChunkKey where
  path : SourcePath
  position : Nat
  length : Nat
deriving DecidableEq, Inhabited

namespace ChunkKey

/-- Keys are ordered by path, then by position, then by length. -/
instance : Ord ChunkKey where
  compare a b := (compare a.path b.path).then
    ((compare a.position b.position).then (compare a.length b.length))

/-- Whether two keys are the same, however their paths are spelled. -/
def same (a b : ChunkKey) : Bool :=
  a.position == b.position && a.length == b.length && a.path.same b.path

end ChunkKey

/-- The equate that a form is. -/
def Form.equate? {β : Type} : Form β → Option Equate
  | .equate e => some e
  | .invoke _ => none

/-- The invocation that a form is. -/
def Form.invocation? {β : Type} : Form β → Option (Invocation β)
  | .equate _ => none
  | .invoke i => some i

/-- The equate that a statement is. -/
def Statement.equate? {β : Type} (s : Statement β) : Option Equate := s.form.bind Form.equate?

/-- The invocation that a statement is. -/
def Statement.invocation? {β : Type} (s : Statement β) : Option (Invocation β) :=
  s.form.bind Form.invocation?

namespace Chunk

/-- The offset behind a chunk. -/
def stop (c : Chunk) : Nat := c.position + c.length

/-- The identity of a chunk. -/
def key (c : Chunk) : ChunkKey := ⟨c.path, c.position, c.length⟩

/-- The kind of a chunk. -/
def kind (c : Chunk) : ChunkKind :=
  match c.content with
  | .comment _ => .comment
  | .statement _ => .statement
  | .macroDef _ => .macroDef

/-- The text of a comment. -/
def comment? (c : Chunk) : Option Text :=
  match c.content with
  | .comment text => some text
  | _ => none

/-- The statement that a chunk holds. -/
def statement? (c : Chunk) : Option (Statement Chunk) :=
  match c.content with
  | .statement s => some s
  | _ => none

/-- The macro that a chunk defines. -/
def definition? (c : Chunk) : Option (Macro Chunk) :=
  match c.content with
  | .macroDef m => some m
  | _ => none

/-- The entries of the body of a chunk, none unless it defines a macro. -/
def body (c : Chunk) : List (Option Chunk) := (c.definition?.map (·.body)).getD []

/-- Whether a chunk is a statement line with nothing on it. -/
def isBlank (c : Chunk) : Bool :=
  match c.content with
  | .statement s => Text.isBlank s.text
  | _ => false

/-- The chunk that is reached by choosing a body entry again and again. -/
def descendant? (c : Chunk) : List Nat → Option Chunk
  | [] => some c
  | i :: rest =>
    match c.body[i]? with
    | some (some child) => child.descendant? rest
    | _ => none

theorem mem_body_iff {c d : Chunk} :
    some d ∈ c.body ↔ ∃ m, c.content = .macroDef m ∧ some d ∈ m.body := by
  cases h : c.content <;> simp [body, definition?, h]

/-- A chunk is larger than the chunks in its body. -/
theorem sizeOf_lt_of_mem_body {c d : Chunk} (h : some d ∈ c.body) : sizeOf d < sizeOf c := by
  obtain ⟨m, hm, hd⟩ := mem_body_iff.1 h
  obtain ⟨path, position, line, length, content⟩ := c
  cases hm
  obtain ⟨name, parameters, body, valid⟩ := m
  have := List.sizeOf_lt_of_mem hd
  simp at this ⊢
  omega

/-- What holds of a chunk whenever it holds of the chunks in its body holds of every
chunk. -/
theorem induction {P : Chunk → Prop} (step : ∀ c, (∀ d, some d ∈ c.body → P d) → P c)
    (c : Chunk) : P c :=
  step c fun d _ => induction step d
termination_by sizeOf c
decreasing_by exact sizeOf_lt_of_mem_body ‹_›

end Chunk

end AsmCatalog
