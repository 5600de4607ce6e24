/-
Sets of chunks into which chunks are inserted one after another.

Chunks may come from any files and in any order, and some of them may have the same place:
equal parts of their paths, equal positions and equal lengths.  Of the chunks at one place
the set keeps the first, and it lists what it keeps by place.

Main definitions:
* `Chunk.Same`, `ChunkKey.coordinates` — two chunks have the same place, and what tells a
  place;
* `ChunkKey.Before`, `ChunkKey.TotallyOrdered` — the order of places, and what makes the
  comparison of keys a total order;
* `ChunkSet.insertEach` — several insertions into a set;
* `ChunkSet.Reflects` — a set knows of some chunks the first at every place;
* `ChunkSet.FirstWins` — all that such a set tells.

Main statements:
* `ChunkKey.compare_eq_lt_iff` — which of two keys comes first;
* `ChunkSet.get?_insert` — what one insertion changes;
* `ChunkSet.toList_eq_of_get?` — two sets that know the same list the same;
* `ChunkSet.firstWins_insertEach` — a set of inserted chunks is a first-wins map.
-/
import AsmCatalog.ChunkSet
import Mathlib.Data.Finset.Card
import Mathlib.Data.List.Sort

namespace AsmCatalog

open Std

/-! ### Places -/

/-- Two chunks cover the same bytes of the same file, however its path is spelled. -/
def Chunk.Same (c d : Chunk) : Prop :=
  c.path.same d.path = true ∧ c.position = d.position ∧ c.length = d.length

namespace ChunkKey

/-- What a key tells: the parts of the path, the position and the length. -/
def coordinates (k : ChunkKey) : List PathPart × Nat × Nat := (k.path.parts, k.position, k.length)

/-- A key comes before another by the parts of its path, in one file by its position, and at
one position by its length. -/
def Before (a b : ChunkKey) : Prop :=
  compare a.path b.path = .lt ∨
    a.path.same b.path = true ∧
      (a.position < b.position ∨ a.position = b.position ∧ a.length < b.length)

theorem compare_path_eq_iff {a b : SourcePath} : compare a b = .eq ↔ a.parts = b.parts :=
  Std.compare_eq_iff_eq (α := List PathPart)

theorem same_iff {a b : ChunkKey} : a.same b = true ↔ a.coordinates = b.coordinates := by
  simp only [same, SourcePath.same, coordinates, Bool.and_eq_true, beq_iff_eq, Prod.mk.injEq]
  constructor
  · rintro ⟨⟨hposition, hlength⟩, hparts⟩
    exact ⟨hparts, hposition, hlength⟩
  · rintro ⟨hparts, hposition, hlength⟩
    exact ⟨⟨hposition, hlength⟩, hparts⟩

theorem compare_eq_lt_iff {a b : ChunkKey} : compare a b = .lt ↔ a.Before b := by
  rw [compare_eq, compareLex, Ordering.then_eq_lt, compareLex, Ordering.then_eq_lt, Before]
  simp only [compareOn, compare_path_eq_iff, SourcePath.same, beq_iff_eq, Nat.compare_eq_lt,
    Nat.compare_eq_eq]

/-- The comparison of the keys of chunks is a total order, in which no two places are equal. -/
structure TotallyOrdered : Prop where
  /-- It puts paths before positions and positions before lengths. -/
  lexicographic (a b : ChunkKey) : compare a b = .lt ↔ a.Before b
  /-- Keys are equal in the order exactly if they are equal, and if their chunks are. -/
  equal (c d : Chunk) : compare c.key d.key = .eq ↔ c.Same d
  same (c d : Chunk) : c.key.same d.key = true ↔ c.Same d
  total (a b : ChunkKey) : compare b a = (compare a b).swap
  trans (a b c : ChunkKey) :
    (compare a b).isLE = true → (compare b c).isLE = true → (compare a c).isLE = true

theorem same_key_iff {c d : Chunk} : c.key.same d.key = true ↔ c.Same d := by
  simp only [same, Chunk.Same, Chunk.key, Bool.and_eq_true, beq_iff_eq]
  constructor
  · rintro ⟨⟨hposition, hlength⟩, hpath⟩
    exact ⟨hpath, hposition, hlength⟩
  · rintro ⟨hpath, hposition, hlength⟩
    exact ⟨⟨hposition, hlength⟩, hpath⟩

theorem totallyOrdered : TotallyOrdered where
  lexicographic _ _ := compare_eq_lt_iff
  equal _ _ := same_iff_compare.symm.trans same_key_iff
  same _ _ := same_key_iff
  total _ _ := OrientedCmp.eq_swap
  trans _ _ _ := TransCmp.isLE_trans

end ChunkKey

namespace ChunkSet

variable {s t : ChunkSet} {c d : Chunk} {key : ChunkKey}

/-! ### One insertion -/

/-- The search for a key passes by everything that comes behind it in the order. -/
theorem find?_eq_none_of_gt {k : ChunkKey} {l : List Chunk} (hk : k.same key = true)
    (hl : ∀ d ∈ l, compare k d.key = .gt) : l.find? (·.key.same key) = none := by
  rw [List.find?_eq_none]
  intro d hd hsame
  have hkey : compare d.key k = .eq := by
    rw [← ChunkKey.same_iff_compare, ChunkKey.same_iff] at *
    rw [hsame, hk]
  have hgt := hl d hd
  rw [OrientedCmp.eq_symm hkey] at hgt
  exact absurd hgt (by simp)

/-- A chunk is found where it has been placed, unless another one was there. -/
theorem find?_place (c : Chunk) {l : List Chunk}
    (h : l.Pairwise fun a b => compare a.key b.key = .gt) :
    (place c l).find? (·.key.same key) =
      (l.find? (·.key.same key)).or ([c].find? (·.key.same key)) := by
  induction l with
  | nil => rfl
  | cons d rest ih =>
    obtain ⟨hd, hrest⟩ := List.pairwise_cons.mp h
    rw [place]
    split
    · rename_i hgt
      rw [List.find?_cons]
      cases hc : c.key.same key with
      | false => simp [hc]
      | true =>
        -- Nothing that comes behind the chunk has its key.
        have hnone : (d :: rest).find? (·.key.same key) = none := by
          refine find?_eq_none_of_gt hc fun e he => ?_
          rcases List.mem_cons.mp he with rfl | he
          · exact hgt
          · exact TransCmp.gt_trans hgt (hd e he)
        simp [hnone, hc]
    · rename_i heq
      rw [List.find?_cons]
      cases hdk : d.key.same key with
      | true => rfl
      | false =>
        -- The chunk has the key of `d`, so that it is not searched for either.
        have hc : c.key.same key = false := by
          rw [← ChunkKey.same_iff_compare, ChunkKey.same_iff] at heq
          rw [← Bool.not_eq_true, ChunkKey.same_iff, heq, ← ChunkKey.same_iff,
            Bool.not_eq_true]
          exact hdk
        simp [hc]
    · rw [List.find?_cons, List.find?_cons, ih hrest]
      cases d.key.same key <;> rfl

/-- An insertion changes what is known of a key only if nothing was known of it. -/
theorem get?_insert (s : ChunkSet) (c : Chunk) (key : ChunkKey) :
    (s.insert c).get? key = (s.get? key).or ([c].find? (·.key.same key)) :=
  find?_place c s.sorted

theorem contains_eq (s : ChunkSet) (key : ChunkKey) : s.contains key = (s.get? key).isSome := by
  rw [contains, get?, List.isSome_find?]

/-- Where a key is there already, nothing is inserted. -/
theorem place_of_any {l : List Chunk} (hl : l.Pairwise fun a b => compare a.key b.key = .gt)
    (h : l.any (·.key.same c.key) = true) : place c l = l := by
  induction l with
  | nil => exact absurd h (by simp)
  | cons d rest ih =>
    obtain ⟨hd, hrest⟩ := List.pairwise_cons.mp hl
    rw [List.any_cons, Bool.or_eq_true, ChunkKey.same_iff_compare] at h
    rw [place]
    split
    · rename_i hgt
      rcases h with heq | hrest'
      · rw [OrientedCmp.eq_symm heq] at hgt
        exact absurd hgt (by simp)
      · obtain ⟨e, he, heq⟩ := List.any_eq_true.mp hrest'
        rw [ChunkKey.same_iff_compare] at heq
        have := TransCmp.gt_trans hgt (hd e he)
        rw [OrientedCmp.eq_symm heq] at this
        exact absurd this (by simp)
    · rfl
    · rename_i hlt
      rcases h with heq | hrest'
      · rw [OrientedCmp.eq_symm heq] at hlt
        exact absurd hlt (by simp)
      · rw [ih hrest hrest']

theorem tryInsert_snd (s : ChunkSet) (c : Chunk) : (s.tryInsert c).2 = s.insert c := by
  rw [tryInsert]
  split
  · obtain ⟨descending, sorted⟩ := s
    simp only [insert, place_of_any sorted ‹_›]
  · rfl

theorem tryInsert_fst (s : ChunkSet) (c : Chunk) :
    (s.tryInsert c).1 = !(s.get? c.key).isSome := by
  rw [tryInsert, contains_eq]
  cases (s.get? c.key).isSome <;> rfl

/-! ### What a set knows -/

/-- A set knows of these chunks, in the order of their insertion, the first with each key. -/
def Reflects (s : ChunkSet) (cs : List Chunk) : Prop :=
  ∀ key : ChunkKey, s.get? key = cs.find? (·.key.same key)

theorem reflects_empty : Reflects .empty [] := fun _ => rfl

theorem Reflects.insert {cs : List Chunk} (h : s.Reflects cs) (c : Chunk) :
    (s.insert c).Reflects (cs ++ [c]) := by
  intro key
  rw [get?_insert, h key, List.find?_append]

/-- Among chunks with different places the search finds each by its key. -/
theorem find?_eq_some_iff {l : List Chunk} (hl : l.Pairwise fun c d => ¬ c.Same d) :
    l.find? (·.key.same key) = some c ↔ c ∈ l ∧ c.key.same key = true := by
  constructor
  · intro h
    refine ⟨List.mem_of_find?_eq_some h, ?_⟩
    have hfound := List.find?_some h
    exact hfound
  · rintro ⟨hmem, hsame⟩
    obtain ⟨front, behind, rfl⟩ := List.append_of_mem hmem
    rw [List.find?_eq_some_iff_append]
    refine ⟨hsame, front, behind, rfl, fun d hd => ?_⟩
    have hne := (List.pairwise_append.mp hl).2.2 d hd c List.mem_cons_self
    rw [Bool.not_eq_true', ← Bool.not_eq_true]
    intro hdsame
    rw [← ChunkKey.same_key_iff, ChunkKey.same_iff] at hne
    exact hne ((ChunkKey.same_iff.mp hdsame).trans (ChunkKey.same_iff.mp hsame).symm)

/-- No two chunks of a set are the same. -/
theorem apart_descending (s : ChunkSet) : s.descending.Pairwise fun c d => ¬ c.Same d := by
  refine s.sorted.imp fun {c d} hgt hsame => ?_
  rw [ChunkKey.same_iff_compare.mp (ChunkKey.same_key_iff.mpr hsame)] at hgt
  exact absurd hgt (by simp)

/-- A chunk of a set is what the set knows of its key. -/
theorem get?_eq_some_iff : s.get? key = some c ↔ c ∈ s.toList ∧ c.key.same key = true := by
  rw [toList, List.mem_reverse]
  exact find?_eq_some_iff s.apart_descending

/-- Two sets that know the same of every key list the same chunks in the same order. -/
theorem toList_eq_of_get? (h : ∀ key, s.get? key = t.get? key) : s.toList = t.toList := by
  have hmem : ∀ c, c ∈ s.toList ↔ c ∈ t.toList := by
    intro c
    have hself : c.key.same c.key = true := ChunkKey.same_iff.mpr rfl
    have hs : s.get? c.key = some c ↔ c ∈ s.toList := by simp [get?_eq_some_iff, hself]
    have ht : t.get? c.key = some c ↔ c ∈ t.toList := by simp [get?_eq_some_iff, hself]
    rw [← hs, ← ht, h]
  have hirrefl : Std.Irrefl fun a b : Chunk => compare a.key b.key = .lt :=
    ⟨fun a h => absurd (Std.compare_self.symm.trans h) (by simp)⟩
  have hanti : Std.Antisymm fun a b : Chunk => compare a.key b.key = .lt :=
    ⟨fun a b hab hba => absurd ((OrientedCmp.gt_iff_lt.mpr hba).symm.trans hab) (by simp)⟩
  exact s.sorted_toList.eq_of_mem_iff t.sorted_toList hmem

section Reflects

variable {cs ds : List Chunk}

theorem Reflects.get?_isSome (h : s.Reflects cs) :
    (s.get? key).isSome = true ↔ ∃ c ∈ cs, c.key.same key = true := by
  rw [h key, List.isSome_find?, List.any_eq_true]

/-- The places of the chunks in a set are those of the chunks that were inserted. -/
theorem Reflects.mem_coordinates (h : s.Reflects cs) (x : List PathPart × Nat × Nat) :
    x ∈ s.toList.map (·.key.coordinates) ↔ x ∈ cs.map (·.key.coordinates) := by
  constructor
  · intro hx
    obtain ⟨c, hc, rfl⟩ := List.mem_map.mp hx
    have hsome : (s.get? c.key).isSome = true := by
      rw [get?_eq_some_iff.mpr ⟨hc, ChunkKey.same_iff.mpr rfl⟩]
      rfl
    obtain ⟨d, hd, hsame⟩ := h.get?_isSome.mp hsome
    exact List.mem_map.mpr ⟨d, hd, ChunkKey.same_iff.mp hsame⟩
  · intro hx
    obtain ⟨c, hc, rfl⟩ := List.mem_map.mp hx
    have hsome := h.get?_isSome.mpr ⟨c, hc, ChunkKey.same_iff.mpr rfl⟩
    obtain ⟨d, hd⟩ := Option.isSome_iff_exists.mp hsome
    obtain ⟨hmem, hsame⟩ := get?_eq_some_iff.mp hd
    exact List.mem_map.mpr ⟨d, hmem, ChunkKey.same_iff.mp hsame⟩

theorem nodup_coordinates (s : ChunkSet) : (s.toList.map (·.key.coordinates)).Nodup := by
  rw [toList, List.map_reverse, List.nodup_reverse, List.Nodup, List.pairwise_map]
  refine s.apart_descending.imp fun {c d} hne hsame => hne ?_
  exact ChunkKey.same_key_iff.mp (ChunkKey.same_iff.mpr hsame)

theorem Reflects.size_eq (h : s.Reflects cs) :
    s.size = (cs.map (·.key.coordinates)).toFinset.card := by
  have hplaces : (cs.map (·.key.coordinates)).toFinset =
      (s.toList.map (·.key.coordinates)).toFinset := by
    ext x
    rw [List.mem_toFinset, List.mem_toFinset, h.mem_coordinates]
  rw [hplaces, List.toFinset_card_of_nodup s.nodup_coordinates, List.length_map, toList,
    List.length_reverse, size]

/-- Of chunks with different places the one with a key is found in any order. -/
theorem find?_eq_of_perm (hperm : ds.Perm cs) (hcs : cs.Pairwise fun c d => ¬ c.Same d) :
    ds.find? (·.key.same key) = cs.find? (·.key.same key) := by
  have hsymm : ∀ {c d : Chunk}, ¬ c.Same d → ¬ d.Same c := by
    intro c d h hdc
    rw [← ChunkKey.same_key_iff, ChunkKey.same_iff] at h hdc
    exact h hdc.symm
  have hds : ds.Pairwise fun c d => ¬ c.Same d := hperm.symm.pairwise hcs hsymm
  refine Option.ext fun c => ?_
  rw [find?_eq_some_iff hds, find?_eq_some_iff hcs, hperm.mem_iff]

end Reflects

/-! ### Several insertions -/

/-- Several insertions, one after another: whether each has added its chunk, and the set that
they leave. -/
def insertEach (s : ChunkSet) : List Chunk → List Bool × ChunkSet
  | [] => ([], s)
  | c :: rest =>
    let first := s.tryInsert c
    let later := first.2.insertEach rest
    (first.1 :: later.1, later.2)

/-- What a set and the answers of the insertions that have led to it tell of the chunks `cs`
that were inserted, in their order. -/
structure FirstWins (cs : List Chunk) (answers : List Bool) (s : ChunkSet) : Prop where
  /-- Each insertion answers. -/
  answered : answers.length = cs.length
  /-- A chunk is added exactly if no earlier one is the same. -/
  added (i : Nat) (c : Chunk) : cs[i]? = some c →
    (answers[i]? = some true ↔ ∀ d ∈ cs.take i, ¬ d.Same c)
  /-- A key leads to the first chunk that has it. -/
  first (key : ChunkKey) :
    s.get? key = cs.find? fun c => decide (c.key.coordinates = key.coordinates)
  contained (key : ChunkKey) : s.contains key = (s.get? key).isSome
  /-- There are as many chunks as keys. -/
  counted : s.size = (cs.map (·.key.coordinates)).toFinset.card
  ascending : s.toList.Pairwise fun c d => c.key.Before d.key
  /-- Without chunks that are the same the order of the insertions does not matter. -/
  reordered (ds : List Chunk) : ds.Perm cs → cs.Pairwise (fun c d => ¬ c.Same d) →
    (insertEach .empty ds).2.toList = s.toList

/-- What several insertions leave and answer, behind others. -/
theorem Reflects.insertEach {earlier : List Chunk} (h : s.Reflects earlier) (cs : List Chunk) :
    (s.insertEach cs).2.Reflects (earlier ++ cs) ∧
      (s.insertEach cs).1.length = cs.length ∧
      ∀ (i : Nat) (c : Chunk), cs[i]? = some c →
        ((s.insertEach cs).1[i]? = some true ↔ ∀ d ∈ earlier ++ cs.take i, ¬ d.Same c) := by
  induction cs generalizing s earlier with
  | nil => exact ⟨by simpa [ChunkSet.insertEach] using h, rfl, fun i c hc => absurd hc (by simp)⟩
  | cons c rest ih =>
    have hnext : (s.tryInsert c).2.Reflects (earlier ++ [c]) := by
      rw [tryInsert_snd]
      exact h.insert c
    obtain ⟨hreflects, hlength, hadded⟩ := ih hnext
    rw [List.append_assoc, List.singleton_append] at hreflects
    refine ⟨hreflects, congrArg (· + 1) hlength, fun i d hd => ?_⟩
    cases i with
    | zero =>
      obtain rfl : c = d := by simpa using hd
      rw [ChunkSet.insertEach, List.getElem?_cons_zero, Option.some_inj, tryInsert_fst,
        Bool.not_eq_true', ← Bool.not_eq_true, h.get?_isSome, List.take_zero, List.append_nil]
      simp only [ChunkKey.same_key_iff, not_exists, not_and]
    | succ i =>
      rw [List.getElem?_cons_succ] at hd
      have := hadded i d hd
      rw [List.append_assoc, List.singleton_append] at this
      rw [ChunkSet.insertEach, List.getElem?_cons_succ, List.take_succ_cons]
      exact this

/-- A set of chunks that were inserted one after another holds the first at each place, in
the order of the places. -/
theorem firstWins_insertEach (cs : List Chunk) :
    ChunkKey.TotallyOrdered ∧
      FirstWins cs (insertEach .empty cs).1 (insertEach .empty cs).2 := by
  obtain ⟨hreflects, hlength, hadded⟩ := reflects_empty.insertEach cs
  rw [List.nil_append] at hreflects
  refine ⟨ChunkKey.totallyOrdered, hlength, hadded, fun key => ?_, contains_eq _,
    hreflects.size_eq, ?_, fun ds hperm hcs => ?_⟩
  · rw [hreflects key]
    congr 1
    funext c
    rw [Bool.eq_iff_iff, ChunkKey.same_iff, decide_eq_true_eq]
  · exact (sorted_toList _).imp fun hlt => ChunkKey.compare_eq_lt_iff.mp hlt
  · obtain ⟨hreflects', -⟩ := reflects_empty.insertEach ds
    rw [List.nil_append] at hreflects'
    refine toList_eq_of_get? fun key => ?_
    rw [hreflects' key, hreflects key, find?_eq_of_perm hperm hcs]

/-- A second spelling of a path makes no second place. -/
example :
    let at? (path : String) (position : Nat) : Chunk :=
      ⟨⟨path.toList⟩, position, 0, 3, .comment []⟩
    (insertEach .empty [at? "b//./c" 4, at? "b/c/" 4, at? "./b/c" 9, at? "b/c" 2]).1 =
      [true, false, true, true] := by decide +kernel

end ChunkSet

end AsmCatalog
