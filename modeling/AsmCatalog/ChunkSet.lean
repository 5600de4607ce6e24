/-
Sets of chunks.

A set holds one chunk for each key, in the order of the keys.  The chunk that was
inserted first stays.

Main definitions:
* `ChunkSet` — the chunks, the greatest key first, with the proof that they are in order;
* `ChunkSet.toList` — the chunks in ascending order;
* `ChunkSet.insert`, `ChunkSet.get?`, `ChunkSet.contains`, `ChunkSet.size`;
* `ChunkSet.tryInsert` — an insertion that tells whether it has added the chunk.

Main statements:
* `ChunkKey.same_iff_compare` — keys are the same exactly if neither comes first;
* `ChunkSet.sorted_toList` — the chunks are listed in ascending order.
-/
import AsmCatalog.Chunk

namespace AsmCatalog

open Std

/-- Parts are compared by kind and then by name. -/
theorem PathPart.compare_eq (a b : PathPart) :
    compare a b = compareLex (compareOn PathPart.rank) (compareOn PathPart.label) a b := rfl

instance : TransOrd PathPart :=
  inferInstanceAs (TransCmp (compareLex (compareOn PathPart.rank) (compareOn PathPart.label)))

instance : LawfulEqOrd PathPart where
  eq_of_compare {a b} h := by
    rw [PathPart.compare_eq, compareLex_eq_eq] at h
    have hr : a.rank = b.rank := LawfulEqOrd.eq_of_compare h.1
    have hl : a.label = b.label := LawfulEqOrd.eq_of_compare h.2
    cases a <;> cases b <;> simp_all [PathPart.rank, PathPart.label]

instance : TransOrd SourcePath := inferInstanceAs (TransCmp (compareOn SourcePath.parts))

namespace ChunkKey

/-- Keys are compared by path, then by position, then by length. -/
theorem compare_eq (a b : ChunkKey) :
    compare a b = compareLex (compareOn ChunkKey.path)
      (compareLex (compareOn ChunkKey.position) (compareOn ChunkKey.length)) a b := rfl

instance : TransOrd ChunkKey :=
  inferInstanceAs (TransCmp (compareLex (compareOn ChunkKey.path)
    (compareLex (compareOn ChunkKey.position) (compareOn ChunkKey.length))))

/-- Two keys are the same exactly if neither comes before the other. -/
theorem same_iff_compare {a b : ChunkKey} : a.same b = true ↔ compare a b = .eq := by
  have hp : compareOn ChunkKey.path a b = .eq ↔ a.path.parts = b.path.parts :=
    Std.compare_eq_iff_eq (α := List PathPart)
  have hn : ∀ m n : Nat, compare m n = .eq ↔ m = n := fun _ _ => Std.compare_eq_iff_eq
  rw [compare_eq, compareLex_eq_eq, compareLex_eq_eq, hp]
  simp only [compareOn, hn, same, SourcePath.same, Bool.and_eq_true, beq_iff_eq]
  exact and_comm

end ChunkKey

/-- Chunks with distinct keys, the greatest key first.  A scan meets keys in ascending
order, so each of its chunks goes to the front. -/
structure ChunkSet where
  descending : List Chunk := []
  sorted : descending.Pairwise fun a b => compare a.key b.key = .gt := by exact .nil

namespace ChunkSet

/-- The set without chunks. -/
def empty : ChunkSet := {}

instance : Inhabited ChunkSet := ⟨empty⟩

instance : EmptyCollection ChunkSet := ⟨empty⟩

/-- The chunks in ascending order of their keys. -/
def toList (s : ChunkSet) : List Chunk := s.descending.reverse

/-- The number of chunks. -/
def size (s : ChunkSet) : Nat := s.descending.length

/-- Whether there are no chunks. -/
def isEmpty (s : ChunkSet) : Bool := s.descending.isEmpty

/-- The stored chunk with a key. -/
def get? (s : ChunkSet) (key : ChunkKey) : Option Chunk :=
  s.descending.find? fun c => c.key.same key

/-- Whether there is a chunk with a key. -/
def contains (s : ChunkSet) (key : ChunkKey) : Bool := s.descending.any fun c => c.key.same key

/-- What a function gives for the chunks, in ascending order of their keys. -/
def filterMap {β : Type} (f : Chunk → Option β) (s : ChunkSet) : List β :=
  s.descending.foldl (fun found c => (f c).toList ++ found) []

/-- A chunk put in its place, unless its key is there already. -/
def place (c : Chunk) : List Chunk → List Chunk
  | [] => [c]
  | d :: rest =>
    match compare c.key d.key with
    | .gt => c :: d :: rest
    | .eq => d :: rest
    | .lt => d :: place c rest

theorem mem_place {c d : Chunk} {l : List Chunk} (h : d ∈ place c l) : d = c ∨ d ∈ l := by
  induction l with
  | nil => simpa [place] using h
  | cons e rest ih =>
      rw [place] at h
      split at h
      · simpa using h
      · exact .inr h
      · rcases List.mem_cons.1 h with rfl | h
        · exact .inr (List.mem_cons_self ..)
        · exact (ih h).imp_right (List.mem_cons_of_mem _)

theorem sorted_place {c : Chunk} {l : List Chunk}
    (h : l.Pairwise fun a b => compare a.key b.key = .gt) :
    (place c l).Pairwise fun a b => compare a.key b.key = .gt := by
  induction l with
  | nil => simp [place]
  | cons d rest ih =>
      obtain ⟨hd, hrest⟩ := List.pairwise_cons.1 h
      rw [place]
      split
      · rename_i hgt
        refine List.pairwise_cons.2 ⟨fun e he => ?_, h⟩
        rcases List.mem_cons.1 he with rfl | he
        · exact hgt
        · exact TransCmp.gt_trans hgt (hd e he)
      · exact h
      · rename_i hlt
        refine List.pairwise_cons.2 ⟨fun e he => ?_, ih hrest⟩
        rcases mem_place he with rfl | he
        · exact OrientedCmp.gt_iff_lt.2 hlt
        · exact hd e he

/-- The set with a further chunk, unless its key is there already. -/
def insert (s : ChunkSet) (c : Chunk) : ChunkSet :=
  ⟨place c s.descending, sorted_place s.sorted⟩

/-- Whether the chunk is added, and the set behind its insertion. -/
def tryInsert (s : ChunkSet) (c : Chunk) : Bool × ChunkSet :=
  if s.contains c.key then (false, s) else (true, s.insert c)

/-- The chunks are listed in strictly ascending order. -/
theorem sorted_toList (s : ChunkSet) :
    s.toList.Pairwise fun a b => compare a.key b.key = .lt := by
  rw [toList, List.pairwise_reverse]
  exact s.sorted.imp fun h => OrientedCmp.gt_iff_lt.1 h

theorem filterMap_eq {β : Type} (f : Chunk → Option β) (s : ChunkSet) :
    s.filterMap f = s.toList.filterMap f := by
  have : ∀ (l : List Chunk) (found : List β),
      l.foldl (fun found c => (f c).toList ++ found) found = l.reverse.filterMap f ++ found := by
    intro l
    induction l with
    | nil => simp
    | cons c rest ih =>
        intro found
        rw [List.foldl_cons, ih, List.reverse_cons, List.filterMap_append]
        cases h : f c <;> simp [h]
  simp [filterMap, toList, this]

end ChunkSet

end AsmCatalog
