/-
The tree of chunks.

A macro holds chunks, and those may be macros again.  What is said of all chunks at any
depth is said here of one chunk and then of the entries of its body, by a recursion that
knows no order of lines and no offsets.

Main definitions:
* `Chunk.fold` — a value of a chunk from the values of the chunks in its body;
* `Chunk.all`, `Catalog.allChunks` — a chunk and all chunks inside it, each before those
  in its body, and those of a whole file;
* `Chunk.Precedes` — one chunk, with all that is in it, lies before another;
* `Chunk.nodes` — the same, each behind those in its body, with the chunk around it;
* `Chunk.lineCount`, `numbered` — the lines of a chunk, and where entries begin;
* `Chunk.owned` — the body entries at every depth, with their lines and their macros.

Main statements:
* `Chunk.all_eq`, `Chunk.nodes_eq`, `Chunk.lineCount_eq`, `Chunk.owned_eq` — how each of
  them follows the body.
-/
import AsmCatalog.Catalog

namespace AsmCatalog

/-- The chunks among the entries of a body. -/
def present (entries : List (Option Chunk)) : List Chunk := entries.filterMap id

@[simp] theorem present_some (c : Chunk) (later : List (Option Chunk)) :
    present (some c :: later) = c :: present later := rfl

theorem flatMap_present_cons {β : Type} (g : Chunk → List β) (e : Option Chunk)
    (later : List (Option Chunk)) :
    (present (e :: later)).flatMap g = (e.map g).getD [] ++ (present later).flatMap g := by
  cases e <;> rfl

theorem map_present_cons {β : Type} (g : Chunk → β) (e : Option Chunk)
    (later : List (Option Chunk)) :
    (present (e :: later)).map g = (e.map g).toList ++ (present later).map g := by
  cases e <;> rfl

theorem mem_present {entries : List (Option Chunk)} {c : Chunk} :
    c ∈ present entries ↔ some c ∈ entries := by
  simp [present]

namespace Chunk

variable {α : Type}

/-- A value of a chunk, by a step that is given the values of the entries of its body. -/
def fold (step : Chunk → List (Option α) → α) (c : Chunk) : α :=
  step c (c.body.attach.map fun e =>
    match e with
    | ⟨none, _⟩ => none
    | ⟨some d, _⟩ => some (d.fold step))
termination_by sizeOf c
decreasing_by exact sizeOf_lt_of_mem_body ‹_›

theorem fold_eq (step : Chunk → List (Option α) → α) (c : Chunk) :
    c.fold step = step c (c.body.map (Option.map (fold step))) := by
  have hentry : ∀ e : { e // e ∈ c.body },
      (match e with
        | ⟨none, _⟩ => none
        | ⟨some d, _⟩ => some (d.fold step)) = e.1.map (fold step) := by
    rintro ⟨_ | d, hd⟩ <;> rfl
  rw [fold]
  congr 1
  calc c.body.attach.map _ = c.body.attach.map fun e => e.1.map (fold step) :=
        List.map_congr_left fun e _ => hentry e
    _ = c.body.map (Option.map (fold step)) := List.attach_map_val ..

theorem filterMap_map_fold (step : Chunk → List (Option α) → α)
    (entries : List (Option Chunk)) :
    (entries.map (Option.map (fold step))).filterMap id = (present entries).map (fold step) := by
  induction entries with
  | nil => rfl
  | cons e later ih =>
    cases e with
    | none => exact ih
    | some d => exact congrArg (d.fold step :: ·) ih

/-! ### All chunks -/

/-- A chunk and all chunks inside it, each before those in its body. -/
def all : Chunk → List Chunk := fold fun c inner => c :: (inner.filterMap id).flatten

theorem all_eq (c : Chunk) : c.all = c :: (present c.body).flatMap all := by
  rw [all, fold_eq, filterMap_map_fold, List.flatMap_def]

theorem mem_all_self (c : Chunk) : c ∈ c.all := by
  rw [all_eq]
  exact List.mem_cons_self

theorem mem_all_iff {c d : Chunk} : d ∈ c.all ↔ d = c ∨ ∃ e, some e ∈ c.body ∧ d ∈ e.all := by
  simp only [all_eq c, List.mem_cons, List.mem_flatMap, mem_present]

/-- What lies in the body of a chunk inside another one lies inside that one. -/
theorem mem_all_of_mem_body {c m d : Chunk} (hm : m ∈ c.all) (hd : some d ∈ m.body) :
    d ∈ c.all := by
  induction c using Chunk.induction with
  | step c ih =>
    rw [mem_all_iff] at hm ⊢
    rcases hm with rfl | ⟨e, he, hm⟩
    · exact Or.inr ⟨d, hd, d.mem_all_self⟩
    · exact Or.inr ⟨e, he, ih e he hm⟩

theorem sizeOf_le_of_mem_all {c d : Chunk} (h : d ∈ c.all) : sizeOf d ≤ sizeOf c := by
  induction c using Chunk.induction with
  | step c ih =>
    rcases mem_all_iff.mp h with rfl | ⟨e, he, hd⟩
    · exact Nat.le_refl _
    · exact Nat.le_trans (ih e he hd) (Nat.le_of_lt (sizeOf_lt_of_mem_body he))

theorem kind_of_statement {c : Chunk} {s : Statement Chunk} (h : c.content = .statement s) :
    c.kind = .statement := by
  rw [kind, h]

theorem kind_of_definition? {c : Chunk} {m : Macro Chunk} (h : c.definition? = some m) :
    c.kind = .macroDef := by
  obtain ⟨path, position, line, length, content⟩ := c
  cases content with
  | comment text => exact absurd h (by simp [definition?])
  | statement s => exact absurd h (by simp [definition?])
  | macroDef m => rfl

/-- All that is in the chunk `a` lies before all that is in the chunk `b`. -/
def Precedes (a b : Chunk) : Prop :=
  ∀ c ∈ a.all, ∀ d ∈ b.all, c.stop ≤ d.position ∧ c.position < d.position ∧ c.line < d.line

theorem Precedes.not_mem_all {a b : Chunk} (h : a.Precedes b) : a ∉ b.all ∧ b ∉ a.all := by
  constructor
  · exact fun ha => absurd (h a a.mem_all_self a ha).2.2 (Int.lt_irrefl _)
  · exact fun hb => absurd (h b hb b b.mem_all_self).2.2 (Int.lt_irrefl _)

end Chunk

/-- The chunks of a file at all depths. -/
def Catalog.allChunks (file : Catalog) : List Chunk := file.chunks.toList.flatMap Chunk.all

namespace Chunk

/-- A chunk and all chunks inside it, each behind those in its body, and each with the
chunk in whose body it stands. -/
def nodes : Chunk → Option Chunk → List (Chunk × Option Chunk) :=
  fold fun c inner around => (inner.filterMap id).flatMap (· (some c)) ++ [(c, around)]

theorem nodes_eq (c : Chunk) (around : Option Chunk) :
    c.nodes around = (present c.body).flatMap (·.nodes (some c)) ++ [(c, around)] := by
  rw [nodes, fold_eq, filterMap_map_fold, List.flatMap_map]

/-! ### Lines of chunks -/

/-- How many lines a chunk covers: its first line, and for a macro the lines of the
entries of its body, where an empty one stands for a blank line. -/
def lineCount : Chunk → Nat :=
  fold fun _ inner => 1 + inner.foldr (fun e total => e.getD 1 + total) 0

end Chunk

/-- How many lines an entry covers. -/
def entryLines (e : Option Chunk) : Nat := (e.map Chunk.lineCount).getD 1

/-- How many lines the entries of a body cover. -/
def bodyLines : List (Option Chunk) → Nat
  | [] => 0
  | e :: later => entryLines e + bodyLines later

theorem Chunk.lineCount_eq (c : Chunk) : c.lineCount = 1 + bodyLines c.body := by
  have hbody : ∀ entries : List (Option Chunk),
      (entries.map (Option.map lineCount)).foldr (fun e total => e.getD 1 + total) 0 =
        bodyLines entries := by
    intro entries
    induction entries with
    | nil => rfl
    | cons e later ih => rw [List.map_cons, List.foldr_cons, ih, bodyLines, entryLines]
  rw [lineCount, fold_eq, ← hbody]
  rfl

/-- Entries with the numbers of their first lines, where the lines of one come behind
those of the entry before it. -/
def numbered (number : Int) : List (Option Chunk) → List (Int × Option Chunk)
  | [] => []
  | e :: later => (number, e) :: numbered (number + entryLines e) later

theorem mem_of_mem_numbered {number k : Int} {entries : List (Option Chunk)}
    {e : Option Chunk} (h : (k, e) ∈ numbered number entries) : e ∈ entries := by
  induction entries generalizing number with
  | nil => exact absurd h List.not_mem_nil
  | cons e' later ih =>
    rcases List.mem_cons.mp h with heq | hlater
    · rw [(Prod.mk.inj heq).2]
      exact List.mem_cons_self
    · exact List.mem_cons_of_mem _ (ih hlater)

/-- A body entry as it stands in the tree: the number of its first line, the line of the
macro that it belongs to, and what the entry gives as its own line. -/
structure Ownership where
  first : Int
  owner : Int
  line : Option Int
deriving DecidableEq

namespace Chunk

/-- The body entries of a chunk at every depth, in the order of their lines. -/
def owned (c : Chunk) : List Ownership :=
  (numbered (c.line + 1) c.body).attach.flatMap fun e =>
    match e with
    | ⟨(k, none), _⟩ => [⟨k, c.line, none⟩]
    | ⟨(k, some d), _⟩ => ⟨k, c.line, some d.line⟩ :: d.owned
termination_by sizeOf c
decreasing_by exact sizeOf_lt_of_mem_body (mem_of_mem_numbered ‹_›)

end Chunk

/-- The entries of one body and those inside them, where the first line of the first one
has this number. -/
def ownedFrom (number owner : Int) (entries : List (Option Chunk)) : List Ownership :=
  (numbered number entries).flatMap fun e =>
    ⟨e.1, owner, e.2.map Chunk.line⟩ :: (e.2.map Chunk.owned).getD []

theorem ownedFrom_cons (number owner : Int) (e : Option Chunk) (later : List (Option Chunk)) :
    ownedFrom number owner (e :: later) =
      ⟨number, owner, e.map Chunk.line⟩ ::
        ((e.map Chunk.owned).getD [] ++ ownedFrom (number + entryLines e) owner later) := rfl

theorem Chunk.owned_eq (c : Chunk) : c.owned = ownedFrom (c.line + 1) c.line c.body := by
  have hentry : ∀ e : { e // e ∈ numbered (c.line + 1) c.body },
      (match e with
        | ⟨(k, none), _⟩ => [⟨k, c.line, none⟩]
        | ⟨(k, some d), _⟩ => ⟨k, c.line, some d.line⟩ :: d.owned) =
        (⟨e.1.1, c.line, e.1.2.map Chunk.line⟩ : Ownership) ::
          (e.1.2.map Chunk.owned).getD [] := by
    rintro ⟨⟨k, _ | d⟩, hd⟩ <;> rfl
  rw [owned, ownedFrom, List.flatMap_def, List.flatMap_def]
  congr 1
  calc (numbered (c.line + 1) c.body).attach.map _ =
      (numbered (c.line + 1) c.body).attach.map fun e =>
        (⟨e.1.1, c.line, e.1.2.map Chunk.line⟩ : Ownership) ::
          (e.1.2.map Chunk.owned).getD [] := List.map_congr_left fun e _ => hentry e
    _ = _ := List.attach_map_val (f := fun e : Int × Option Chunk =>
        (⟨e.1, c.line, e.2.map Chunk.line⟩ : Ownership) :: (e.2.map Chunk.owned).getD [])

/-! ### Chunks without a body -/

namespace Chunk

variable {c : Chunk}

theorem all_of_body_nil (h : c.body = []) : c.all = [c] := by
  rw [all_eq, h]
  rfl

theorem nodes_of_body_nil (h : c.body = []) (around : Option Chunk) :
    c.nodes around = [(c, around)] := by
  rw [nodes_eq, h]
  rfl

theorem lineCount_of_body_nil (h : c.body = []) : c.lineCount = 1 := by
  rw [lineCount_eq, h]
  rfl

theorem owned_of_body_nil (h : c.body = []) : c.owned = [] := by
  rw [owned_eq, h]
  rfl

end Chunk

end AsmCatalog
