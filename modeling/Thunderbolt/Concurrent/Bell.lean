import Thunderbolt.Concurrent.System

/-! A flag, a lock, and a bell.

Threads go to sleep out of a critical section, in which they have seen the flag down. Who raises the flag
first, and then wakes everybody with the lock in hand, leaves nobody asleep, then or later: whoever had
seen the flag down was asleep by the time the lock was free. -/
namespace Thunderbolt.Concurrent

/-- Who sleeps, who is about to, and where the flag and the lock are. -/
structure Sleepers (σ Thread : Type*) where
  flag : σ → Prop
  lock : σ → Option Thread
  /-- Has seen the flag down, with the lock in hand. -/
  drowsy : σ → Thread → Prop
  asleep : σ → Thread → Prop

variable {σ τ ι Thread : Type*} {S : System σ ι} {B : Sleepers σ Thread} {s₀ s s' : σ}

namespace Sleepers

/-- Nobody lowers the flag, gets drowsy once it is up, or falls asleep wide awake. -/
structure Keeps (B : Sleepers σ Thread) (s s' : σ) : Prop where
  flag : B.flag s → B.flag s'
  drowsy : ∀ t, B.drowsy s' t → B.drowsy s t ∨ ¬B.flag s
  asleep : ∀ t, B.asleep s' t → B.asleep s t ∨ B.drowsy s t

theorem Keeps.refl (B : Sleepers σ Thread) (s : σ) : B.Keeps s s := ⟨id, fun _ => .inl, fun _ => .inl⟩

/-- The sleepers of a part of the state. -/
def comap (B : Sleepers σ Thread) (f : τ → σ) : Sleepers τ Thread where
  flag x := B.flag (f x)
  lock x := B.lock (f x)
  drowsy x := B.drowsy (f x)
  asleep x := B.asleep (f x)

theorem Keeps.comap {f : τ → σ} {x x' : τ} (h : B.Keeps (f x) (f x')) : (B.comap f).Keeps x x' :=
  ⟨h.flag, h.drowsy, h.asleep⟩

/-- The flag is up, and everybody has been woken since. -/
structure Rung (B : Sleepers σ Thread) (s : σ) : Prop where
  flag : B.flag s
  drowsy : ∀ t, ¬B.drowsy s t
  asleep : ∀ t, ¬B.asleep s t

/-- The bell: everybody is woken while the lock is free. -/
theorem rings (hlock : ∀ t, B.drowsy s t → B.lock s = some t) (hfree : B.lock s = none) (hkeeps : B.Keeps s s')
    (hflag : B.flag s) (hwoken : ∀ t, ¬B.asleep s' t) : B.Rung s' where
  flag := hkeeps.flag hflag
  drowsy t ht := by
    have hold : B.drowsy s t := (hkeeps.drowsy t ht).resolve_right fun hdown => hdown hflag
    cases hfree.symm.trans (hlock t hold)
  asleep := hwoken

theorem Rung.comap {f : τ → σ} {x : τ} (h : B.Rung (f x)) : (B.comap f).Rung x := ⟨h.flag, h.drowsy, h.asleep⟩

theorem Rung.step (h : B.Rung s) (hkeeps : B.Keeps s s') : B.Rung s' where
  flag := hkeeps.flag h.flag
  drowsy t ht := (hkeeps.drowsy t ht).elim (h.drowsy t) fun hdown => hdown h.flag
  asleep t ht := (hkeeps.asleep t ht).elim (h.asleep t) (h.drowsy t)

/-- **After the bell nobody falls asleep.** -/
theorem Rung.run (h : B.Rung s₀) (hkeeps : ∀ l s s', S.step l s s' → B.Keeps s s')
    (hs : Reachable (S.startingAt s₀) s) : B.Rung s := by
  induction hs with
  | initial hs => exact hs ▸ h
  | step _ hs ih => exact ih.step (hkeeps _ _ _ hs)

end Sleepers

end Thunderbolt.Concurrent
