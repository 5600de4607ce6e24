/-
What the actions of a scan leave behind.

An action is told by what holds before it, what holds of its value and of the state behind it,
and what holds where it fails.  An action that fails keeps its state, so that something can be
said of the events of an import that never comes to its end.

Main definition:
* `Import.Ensures` — what an action leaves, and what holds where it fails.

Main statements:
* `Import.Ensures.bind`, `Import.Ensures.reading`, `Import.Ensures.throw` — the rules by which
  this is told of an action from its steps.
-/
import AsmCatalog.Proofs.Dispatch

namespace AsmCatalog

namespace Import

/-- Where `before` holds, an action leaves what `behind` says of its value and of the state,
and `failed` holds where it fails. -/
structure Ensures {α : Type} (before : State → Prop) (m : Step α) (behind : α → State → Prop)
    (failed : ImportError → State → Prop) : Prop where
  ok {s s' : State} {a : α} : before s → m s = .ok a s' → behind a s'
  error {s s' : State} {e : ImportError} : before s → m s = .error e s' → failed e s'

namespace Ensures

variable {α β : Type} {before : State → Prop} {failed : ImportError → State → Prop}

theorem pure {a : α} {behind : α → State → Prop} (h : ∀ s, before s → behind a s) :
    Ensures before (Pure.pure a) behind failed where
  ok hs hm := by
    obtain ⟨rfl, rfl⟩ := EStateM.Result.ok.inj hm
    exact h _ hs
  error _ hm := absurd hm (by simp [pure_apply])

theorem bind {m : Step α} {k : α → Step β} {between : α → State → Prop}
    {behind : β → State → Prop} (hm : Ensures before m between failed)
    (hk : ∀ a, Ensures (between a) (k a) behind failed) :
    Ensures before (m >>= k) behind failed where
  ok hs h := by
    obtain ⟨a, s₁, hs₁, h⟩ := bind_eq_ok.mp h
    exact (hk a).ok (hm.ok hs hs₁) h
  error hs h := by
    rcases bind_eq_error.mp h with h | ⟨a, s₁, hs₁, h⟩
    · exact hm.error hs h
    · exact (hk a).error (hm.ok hs hs₁) h

/-- An action that looks at the state goes on with what it has seen. -/
theorem get_bind {k : State → Step β} {behind : β → State → Prop}
    (hk : ∀ s, Ensures before (k s) behind failed) :
    Ensures before (get >>= k) behind failed where
  ok hs h := (hk _).ok hs h
  error hs h := (hk _).error hs h

theorem modify {g : State → State} {behind : Unit → State → Prop}
    (h : ∀ s, before s → behind () (g s)) : Ensures before (modify g) behind failed where
  ok hs hm := by
    obtain ⟨-, rfl⟩ := EStateM.Result.ok.inj hm
    exact h _ hs
  error _ hm := absurd hm (by simp [modify_apply])

/-- A step of reading that cannot fail. -/
theorem reading {r : Reading α} {behind : α → State → Prop}
    (h : ∀ s, before s → ∃ a c, r s.cursor = .ok (a, c) ∧ behind a { s with cursor := c }) :
    Ensures before (reading r) behind failed where
  ok hs hm := by
    obtain ⟨a, c, hr, hbehind⟩ := h _ hs
    rw [Import.reading, hr] at hm
    obtain ⟨rfl, rfl⟩ := EStateM.Result.ok.inj hm
    exact hbehind
  error hs hm := by
    obtain ⟨a, c, hr, -⟩ := h _ hs
    rw [Import.reading, hr] at hm
    exact absurd hm (by simp)

/-- A step of reading that may fail, which leaves the state as it was. -/
theorem reading_of {r : Reading α} {behind : α → State → Prop}
    (hok : ∀ s a s', before s → Import.reading r s = .ok a s' → behind a s')
    (herror : ∀ s reason, before s → failed (.unread reason) s) :
    Ensures before (Import.reading r) behind failed where
  ok hs hm := hok _ _ _ hs hm
  error hs hm := by
    obtain ⟨reason, -, rfl, rfl⟩ := reading_eq_error hm
    exact herror _ reason hs

theorem throw {e : ImportError} {behind : α → State → Prop} (h : ∀ s, before s → failed e s) :
    Ensures before (throw e) behind failed where
  ok _ hm := absurd hm (by simp [throw_apply])
  error hs hm := by
    obtain ⟨rfl, rfl⟩ := EStateM.Result.error.inj hm
    exact h _ hs

theorem ite {c : Prop} [Decidable c] {m k : Step α} {behind : α → State → Prop}
    (hm : Ensures before m behind failed) (hk : Ensures before k behind failed) :
    Ensures before (if c then m else k) behind failed := by
  split
  · exact hm
  · exact hk

/-- What does not depend on the state may be known of it. -/
theorem of_and {φ : Prop} {m : Step α} {behind : α → State → Prop}
    (h : φ → Ensures before m behind failed) :
    Ensures (fun s => φ ∧ before s) m behind failed where
  ok hs hm := (h hs.1).ok hs.2 hm
  error hs hm := (h hs.1).error hs.2 hm

theorem mono {before' : State → Prop} {m : Step α} {behind behind' : α → State → Prop}
    (h : Ensures before m behind failed) (hbefore : ∀ s, before' s → before s)
    (hbehind : ∀ a s, behind a s → behind' a s) : Ensures before' m behind' failed where
  ok hs hm := hbehind _ _ (h.ok (hbefore _ hs) hm)
  error hs hm := h.error (hbefore _ hs) hm

end Ensures

end Import

end AsmCatalog
