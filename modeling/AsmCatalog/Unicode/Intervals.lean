/-
Character properties given as intervals of scalar values.

A property is a list of closed intervals in ascending order, so that a search
can stop at the first interval that begins above the scalar.

Main definition:
* `Unicode.covers` — the search.
-/

namespace AsmCatalog.Unicode

/-- Whether one of the intervals holds `n`, for intervals in ascending order. -/
def covers : List (Nat × Nat) → Nat → Bool
  | [], _ => false
  | (low, high) :: rest, n => if n < low then false else n ≤ high || covers rest n

end AsmCatalog.Unicode
