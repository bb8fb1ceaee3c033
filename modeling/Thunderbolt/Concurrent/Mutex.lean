import Mathlib.Data.Option.Basic

/-! A mutex.

The lock names its holder, and whoever is inside the critical section holds it. A step keeps that when it
brings nobody else inside, and its own thread goes inside only with the lock that it took while it was free. -/
namespace Thunderbolt.Concurrent

variable {T : Type*} {lock lock' : Option T} {inside inside' : T → Bool} {t u : T}

/-- Whoever is inside holds the lock. -/
def Exclusive (lock : Option T) (inside : T → Bool) : Prop := ∀ t, inside t = true → lock = some t

namespace Exclusive

/-- There is at most one inside. -/
theorem unique (h : Exclusive lock inside) (ht : inside t = true) (hu : inside u = true) : t = u :=
  Option.some.inj ((h t ht).symm.trans (h u hu))

/-- Nobody is inside while the lock is free. -/
theorem outside (h : Exclusive lock inside) (hfree : lock = none) (t : T) : inside t = false := by
  cases hin : inside t with
  | false => rfl
  | true => cases hfree.symm.trans (h t hin)

/-- A step that leaves the lock alone brings nobody inside. -/
theorem mono (h : Exclusive lock inside) (hinside : ∀ t, inside' t = true → inside t = true) :
    Exclusive lock inside' := fun t ht => h t (hinside t ht)

/-- A step of thread `t`: it leaves the lock alone, takes it, or leaves the critical section. -/
theorem step (h : Exclusive lock inside) (hothers : ∀ u, u ≠ t → inside' u = true → inside u = true)
    (hmine : lock' = lock ∧ (inside' t = true → inside t = true) ∨ lock = none ∧ lock' = some t ∨
      inside t = true ∧ inside' t = false) : Exclusive lock' inside' := by
  intro u hu
  by_cases hut : u = t
  · subst hut
    obtain ⟨rfl, hkeep⟩ | ⟨_, hlock⟩ | ⟨_, hleft⟩ := hmine
    · exact h u (hkeep hu)
    · exact hlock
    · cases hleft.symm.trans hu
  · have hold := hothers u hut hu
    obtain ⟨rfl, _⟩ | ⟨hfree, _⟩ | ⟨hin, _⟩ := hmine
    · exact h u hold
    · cases (h.outside hfree u).symm.trans hold
    · exact absurd (h.unique hold hin) hut

end Exclusive

end Thunderbolt.Concurrent
