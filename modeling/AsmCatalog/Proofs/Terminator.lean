/-
What is cut off a line, by the way it ends.

Main statements:
* `withoutTerminator_of_open`, `withoutTerminator_newline`, `withoutTerminator_return` — a
  line without a newline at its end, with a newline, and with a return before it;
* `withoutTerminator_map` — a change of other bytes leaves terminators as they are.
-/
import AsmCatalog.Proofs.PhysicalLine

namespace AsmCatalog

theorem withoutTerminator_of_open {line : Bytes} (h : ∀ front, line ≠ front ++ [newline]) :
    withoutTerminator line = line := by
  obtain ⟨t, ht, ⟨rfl, -⟩ | ⟨rfl, -⟩ | rfl⟩ := exists_terminator line
  · exact (ht.trans (List.append_nil _)).symm
  · exact absurd ht (h _)
  · exact absurd (ht.trans (List.append_cons ..)) (h _)

theorem withoutTerminator_newline {front : Bytes} (h : ¬ [13] <:+ front) :
    withoutTerminator (front ++ [newline]) = front := by
  obtain ⟨t, ht, ⟨-, hopen⟩ | ⟨rfl, -⟩ | rfl⟩ := exists_terminator (front ++ [newline])
  · exact absurd rfl (hopen front)
  · exact (List.append_inj' ht rfl).1.symm
  · have hfront := ht.trans (List.append_cons _ 13 [10])
    exact absurd ⟨_, (List.append_inj' hfront rfl).1.symm⟩ h

theorem withoutTerminator_return (front : Bytes) :
    withoutTerminator (front ++ [13, newline]) = front := by
  obtain ⟨t, ht, ⟨-, hopen⟩ | ⟨rfl, hreturn⟩ | rfl⟩ := exists_terminator (front ++ [13, newline])
  · exact absurd (List.append_cons ..) (hopen _)
  · have hfront := (List.append_cons front 13 [newline]).symm.trans ht
    exact absurd ⟨front, (List.append_inj' hfront rfl).1⟩ hreturn
  · exact (List.append_inj' ht rfl).1.symm

/-- A change of single bytes that neither makes nor destroys a newline or a return leaves
terminators as they are. -/
theorem withoutTerminator_map {f : UInt8 → UInt8} (hnewline : ∀ b, f b = newline ↔ b = newline)
    (hreturn : ∀ b, f b = 13 ↔ b = 13) (line : Bytes) :
    withoutTerminator (line.map f) = (withoutTerminator line).map f := by
  have hends : ∀ {b : UInt8} {l : Bytes}, (∀ a, f a = b ↔ a = b) → [b] <:+ l.map f → [b] <:+ l := by
    rintro b l hb ⟨front, hfront⟩
    obtain ⟨front', last, rfl, -, hlast⟩ := List.map_eq_append_iff.mp hfront.symm
    obtain ⟨a, rest, rfl, ha, hrest⟩ := List.map_eq_cons_iff.mp hlast
    obtain rfl := List.map_eq_nil_iff.mp hrest
    rw [(hb a).mp ha]
    exact List.suffix_append front' [b]
  obtain ⟨t, ht, hcases⟩ := exists_terminator line
  generalize withoutTerminator line = content at ht hcases ⊢
  rcases hcases with ⟨rfl, hopen⟩ | ⟨rfl, hplain⟩ | rfl
  · rw [List.append_nil] at ht
    rw [← ht]
    refine withoutTerminator_of_open fun front hfront => ?_
    obtain ⟨front', hfront'⟩ := hends hnewline ⟨front, hfront.symm⟩
    exact hopen front' hfront'.symm
  · rw [ht, List.map_append, List.map_singleton, (hnewline 10).mpr rfl]
    exact withoutTerminator_newline fun h => hplain (hends hreturn h)
  · rw [ht, List.map_append, List.map_cons, List.map_singleton, (hreturn 13).mpr rfl,
      (hnewline 10).mpr rfl]
    exact withoutTerminator_return _

end AsmCatalog
