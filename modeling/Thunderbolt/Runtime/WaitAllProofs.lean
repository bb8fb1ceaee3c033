import Thunderbolt.Concurrent.Mutex
import Thunderbolt.Runtime.WaitAll

/-! When a `wait_all()` waiter is woken.

As long as no decrement outside `complete()` takes the counter to zero under a
waiter that has already seen it non-zero, a blocked waiter whose counter is zero
always has a `notify_all` coming (`Covered`). `stranded_reachable` is the run in
which the last decrement is the one in `run_inline`. -/
namespace Thunderbolt.Runtime.WaitAll
open Concurrent

variable {Tid : Type} [DecidableEq Tid] {s s' : State Tid} {t u : Tid}

namespace State

@[simp] theorem goto_pc (s : State Tid) (t : Tid) (p : Pc) :
    (s.goto t p).pc = Function.update s.pc t p := rfl

@[simp] theorem goto_outstanding (s : State Tid) (t : Tid) (p : Pc) :
    (s.goto t p).outstanding = s.outstanding := rfl

@[simp] theorem goto_allWaiters (s : State Tid) (t : Tid) (p : Pc) :
    (s.goto t p).allWaiters = s.allWaiters := rfl

@[simp] theorem goto_mutex (s : State Tid) (t : Tid) (p : Pc) : (s.goto t p).mutex = s.mutex := rfl

@[simp] theorem goto_pooled (s : State Tid) (t : Tid) (p : Pc) :
    (s.goto t p).pooled = s.pooled := rfl

end State

/-! ### What each counter counts -/

namespace Pc

/-- A submission already counted whose own decrement has not happened yet. -/
def owes : Pc → Bool
  | counted _ | placed _ | returning | unwinding | running | settling | executing | completing => true
  | _ => false

/-- Between the increment and the decrement of `all_waiters_`. -/
def registered : Pc → Bool
  | acquiring | testing | blocking | blocked | woken | leaving => true
  | _ => false

/-- Inside the critical section of `wait_all()`. -/
def holds : Pc → Bool
  | testing | blocking => true
  | _ => false

/-- Past a predicate check that read a non-zero counter, and not notified since. -/
def asleep : Pc → Bool
  | blocking | blocked => true
  | _ => false

/-- A completer at the first counter still has to notify the waiter at the second. -/
def covers : Pc → Pc → Bool
  | scanning r, _ | deciding r _, _ => r == 0
  | locking, _ => true
  | notifying, p => p == blocked
  | _, _ => false

end Pc

/-- A step moves its own thread; a notification also wakes the blocked ones. -/
theorem pc_other (hs : Step t s s') (hu : u ≠ t) :
    s'.pc u = s.pc u ∨ (s.pc t = .notifying ∧ s.pc u = .blocked ∧ s'.pc u = .woken) := by
  cases hs
  case notifyAll hpc =>
    by_cases hb : s.pc u = .blocked
    · exact .inr ⟨hpc, hb, by simp [Function.update_of_ne hu, State.wake, hb]⟩
    · exact .inl (by simp [Function.update_of_ne hu, State.wake, hb])
  all_goals exact .inl (Function.update_of_ne hu ..)

/-- Who is in the critical section of `wait_all()`. -/
def State.inside (s : State Tid) (t : Tid) : Bool := (s.pc t).holds

theorem exclusive_step (h : Exclusive s.mutex s.inside) (hs : Step t s s') :
    Exclusive s'.mutex s'.inside := by
  refine h.step (t := t) (fun u hu hin => ?_) ?_
  · rcases pc_other hs hu with hsame | ⟨_, _, hwoken⟩
    · rwa [State.inside, hsame] at hin
    · rw [State.inside, hwoken] at hin
      cases hin
  · cases hs <;> simp_all [State.inside, State.wake, Pc.holds]

/-! ### The two counters -/

section Counters
variable [Fintype Tid]

/-- `outstanding_` counts the pooled tasks and the threads that still owe a
decrement; `all_waiters_` counts the threads between its two updates. -/
structure Counted (s : State Tid) : Prop where
  outstanding : s.outstanding = s.pooled + count Pc.owes s.pc
  allWaiters : s.allWaiters = count Pc.registered s.pc

omit [DecidableEq Tid] in
theorem counted_initial : Counted (initial : State Tid) := by
  have ho : count Pc.owes (initial : State Tid).pc = 0 := count_eq_zero.mpr fun _ => rfl
  have ha : count Pc.registered (initial : State Tid).pc = 0 := count_eq_zero.mpr fun _ => rfl
  exact ⟨by rw [ho]; rfl, by rw [ha]; rfl⟩

omit [DecidableEq Tid] in
/-- Waking the blocked threads moves no thread in or out of either count. -/
theorem count_wake (s : State Tid) :
    count Pc.owes s.wake.pc = count Pc.owes s.pc ∧
      count Pc.registered s.wake.pc = count Pc.registered s.pc := by
  constructor <;>
  · apply count_congr
    intro u
    by_cases hb : s.pc u = .blocked <;> simp [State.wake, hb, Pc.owes, Pc.registered]

theorem counted_step (h : Counted s) (hs : Step t s s') : Counted s' := by
  have ho := h.outstanding
  have ha := h.allWaiters
  have hco := count_update Pc.owes s.pc t
  have hca := count_update Pc.registered s.pc t
  cases hs
  case notifyAll hpc =>
    have hw : s.wake.pc t = .notifying := by simp [State.wake, hpc]
    constructor
    · show s.outstanding = s.pooled + count _ (Function.update s.wake.pc t .idle)
      rw [count_update_same (by rw [hw]; rfl), (count_wake s).1, ho]
    · show s.allWaiters = count _ (Function.update s.wake.pc t .idle)
      rw [count_update_same (by rw [hw]; rfl), (count_wake s).2, ha]
  all_goals
    constructor
    · grind [State.goto, Pc.owes]
    · grind [State.goto, Pc.registered]

theorem counted_reachable (h : Reachable (system Tid) s) : Counted s :=
  h.invariant (P := Counted) (by rintro _ rfl; exact counted_initial)
    fun _ _ _ _ hc hs => counted_step hc hs

end Counters

/-! ### Every waiter is served -/

/-- A decrement outside `complete()`. -/
def Pc.lowers : Pc → Bool
  | settling | unwinding => true
  | _ => false

/-- Thread `t` may step: it is not about to lower the counter to zero outside
`complete()` under a waiter that has already read it as non-zero. -/
def Harmless (t : Tid) (s : State Tid) : Prop :=
  (s.pc t).lowers = true → s.outstanding = 1 → ∀ u, (s.pc u).asleep = false

instance [Fintype Tid] (t : Tid) (s : State Tid) : Decidable (Harmless t s) :=
  inferInstanceAs (Decidable (_ → _ → ∀ _, _))

/-- With the counter at zero, every waiter past its predicate check has a
completer that will notify it. -/
def Covered (s : State Tid) : Prop :=
  s.outstanding = 0 → ∀ t, (s.pc t).asleep = true → ∃ u, (s.pc u).covers (s.pc t) = true

/-- A thread asleep after a step that found the counter at zero was asleep before it. -/
theorem asleep_before (hs : Step t s s') (h0 : s.outstanding = 0)
    (hu : (s'.pc u).asleep = true) :
    (s.pc u).asleep = true ∧ (s'.pc u = s.pc u ∨ (u = t ∧ s'.pc u = .blocked)) := by
  by_cases hut : u = t
  · subst hut
    cases hs <;> simp_all [Pc.asleep]
  · rcases pc_other hs hut with h' | ⟨_, _, hw⟩
    · exact ⟨h' ▸ hu, .inl h'⟩
    · simp [hw, Pc.asleep] at hu

/-- A completer that still has to notify `u` keeps that duty over its own step,
or discharges it. -/
theorem covers_own (hx : Exclusive s.mutex s.inside) (hw : s.allWaiters ≠ 0) (hs : Step t s s') (hut : u ≠ t)
    (hu : (s.pc u).asleep = true) (hc : (s.pc t).covers (s.pc u) = true) :
    (s'.pc t).covers (s.pc u) = true ∨ (s'.pc u).asleep = false := by
  have hfree : s.mutex = none → s.pc u = .blocked := by
    intro hm
    cases hp : s.pc u <;> simp_all [Pc.asleep]
    have := hx u (by rw [State.inside, hp]; rfl)
    simp_all
  cases hs
  case notifyAll hpc =>
    right
    simp only [hpc] at hc
    have hb : s.pc u = .blocked := by
      cases hp : s.pc u <;> simp_all [Pc.covers]
    simp [Function.update_of_ne hut, State.wake, hb, Pc.asleep]
  all_goals
    left
    simp_all [Pc.covers]

/-- Blocking only widens who may still notify the waiter. -/
theorem Pc.covers_blocked {p q : Pc} (h : p.covers q = true) : p.covers .blocked = true := by
  cases p <;> simp_all [covers]

/-- The step that takes the counter to zero is a completer's, which notifies. -/
theorem covered_of_lowered (hh : Harmless t s) (hs : Step t s s') (hz : s.outstanding ≠ 0)
    (h0 : s'.outstanding = 0) (hu : (s'.pc u).asleep = true) :
    ∃ v, (s'.pc v).covers (s'.pc u) = true := by
  have hone : ∀ {n : ℕ}, n ≠ 0 → n - 1 = 0 → n = 1 := by omega
  have hcalm : (s.pc t).lowers = true → s.outstanding = 1 → False := by
    intro hl h1
    have hut : u ≠ t := by
      intro heq
      obtain rfl := heq
      cases hs <;> simp_all [Pc.lowers, Pc.asleep]
    have := hh hl h1 u
    rcases pc_other hs hut with h' | ⟨hn, _⟩
    · simp_all
    · simp [hn, Pc.lowers] at hl
  cases hs
  case lower hpc => exact ⟨t, by simp_all [Pc.covers]⟩
  case unwind hpc => exact absurd (hone hz h0) (hcalm (by rw [hpc]; rfl))
  case settle hpc => exact absurd (hone hz h0) (hcalm (by rw [hpc]; rfl))
  case submit => exact absurd h0 (Nat.succ_ne_zero _)
  all_goals exact absurd h0 hz

theorem covered_step (hx : Exclusive s.mutex s.inside) (hw : ∀ u, (s.pc u).asleep = true → s.allWaiters ≠ 0)
    (hh : Harmless t s) (h : Covered s) (hs : Step t s s') : Covered s' := by
  intro h0 u hu
  by_cases hz : s.outstanding = 0
  · obtain ⟨hbefore, hpc⟩ := asleep_before hs hz hu
    obtain ⟨v, hv⟩ := h hz u hbefore
    refine ⟨v, ?_⟩
    have hkeep : (s'.pc v).covers (s.pc u) = true := by
      by_cases hvt : v = t
      · subst hvt
        have huv : u ≠ v := by
          intro heq
          obtain rfl := heq
          cases hp : s.pc u <;> simp_all [Pc.asleep, Pc.covers]
        refine (covers_own hx (hw u hbefore) hs huv hbefore hv).resolve_right ?_
        rw [hu]
        decide
      · rcases pc_other hs hvt with h' | ⟨_, hb, _⟩
        · rw [h']; exact hv
        · simp [hb, Pc.covers] at hv
    rcases hpc with hpc | ⟨_, hpc⟩
    · rw [hpc]; exact hkeep
    · rw [hpc]; exact Pc.covers_blocked hkeep
  · exact covered_of_lowered hh hs hz h0 hu

/-! ### The claim, on runs and against one run -/

/-- A waiter blocked on a counter at zero with nobody left to wake it. -/
def Stranded (s : State Tid) : Prop :=
  (∃ t, s.pc t = .blocked) ∧ s.outstanding = 0 ∧ ∀ u, s.pc u = .idle ∨ s.pc u = .blocked

theorem covered_run [Fintype Tid] (h : Reachable ((system Tid).restrict Harmless) s) :
    Exclusive s.mutex s.inside ∧ Covered s := by
  refine h.invariant (P := fun s => Exclusive s.mutex s.inside ∧ Covered s) ?_ ?_
  · intro _ hi
    obtain rfl := hi
    constructor
    · intro t ht
      cases ht
    · intro _ t ht
      cases ht
  · rintro t s s' hr ⟨hx, hc⟩ ⟨hs, hh⟩
    have hw : ∀ u, (s.pc u).asleep = true → s.allWaiters ≠ 0 := by
      intro u hu
      rw [(counted_reachable hr.of_restrict).allWaiters]
      refine (count_pos (t := u) ?_).ne'
      cases hp : s.pc u <;> simp_all [Pc.asleep, Pc.registered]
    exact ⟨exclusive_step hx hs, covered_step hx hw hh hc hs⟩

/-- **No lost wakeup for `wait_all()`**, on every run in which `run_inline` and
the throw paths of `submit_emplace` never lower the counter to zero under a
sleeping waiter: a thread blocked on a counter at zero has a completer on its
way to `notify_all`. -/
theorem wait_all_served [Fintype Tid] (h : Reachable ((system Tid).restrict Harmless) s) :
    ¬Stranded s ∧ ∀ t, s.pc t = .blocked → s.outstanding = 0 →
      ∃ u, (s.pc u).covers (s.pc t) = true := by
  have hserved : ∀ t, s.pc t = .blocked → s.outstanding = 0 →
      ∃ u, (s.pc u).covers (s.pc t) = true :=
    fun t ht h0 => (covered_run h).2 h0 t (by rw [ht]; rfl)
  refine ⟨?_, hserved⟩
  intro hsome
  obtain ⟨⟨t, ht⟩, h0, hquiet⟩ := hsome
  obtain ⟨u, hu⟩ := hserved t ht h0
  rcases hquiet u with hp | hp <;> simp [hp, Pc.covers] at hu

/-- The theorem on a run: the worker has lowered the counter to zero, and the
blocked thread is one it will notify. -/
theorem wait_all_served_last : ∃ s : State (Fin 3), Reachable ((system (Fin 3)).restrict Harmless) s ∧
    s.pc 0 = .blocked ∧ s.outstanding = 0 ∧ ∃ u, (s.pc u).covers (s.pc 0) = true := by
  have h : Reachable ((system (Fin 3)).restrict Harmless) initial := .initial rfl
  have h := h.step (l := 2) ⟨.submit .submit rfl, by decide⟩
  have h := h.step (l := 2) ⟨.acquire rfl, by decide⟩
  have h := h.step (l := 2) ⟨.publish rfl, by decide⟩
  have h := h.step (l := 1) ⟨.execute rfl (by decide), by decide⟩
  have h := h.step (l := 0) ⟨.waitAll rfl, by decide⟩
  have h := h.step (l := 0) ⟨.onExternal rfl (by decide), by decide⟩
  have h := h.step (l := 0) ⟨.register rfl, by decide⟩
  have h := h.step (l := 0) ⟨.takeMutex rfl rfl, by decide⟩
  have h := h.step (l := 0) ⟨.unsatisfied rfl (by decide), by decide⟩
  have h := h.step (l := 0) ⟨.block rfl, by decide⟩
  have h := h.step (l := 1) ⟨.bodyEnd rfl, by decide⟩
  have h := h.step (l := 1) ⟨.lower rfl, by decide⟩
  exact ⟨_, h, rfl, rfl, (wait_all_served h).2 0 rfl rfl⟩

/-- Thread 0 waits for a pooled task of thread 2 running on worker 1; thread 2
submits again with the pool exhausted, and its inline run outlasts the worker. -/
theorem stranded_reachable : ∃ s : State (Fin 3), Reachable (system (Fin 3)) s ∧ Stranded s := by
  have h : Reachable (system (Fin 3)) initial := .initial rfl
  have h := h.step (l := 2) (.submit .submit rfl)
  have h := h.step (l := 2) (.acquire rfl)
  have h := h.step (l := 2) (.publish rfl)
  have h := h.step (l := 1) (.execute rfl (by decide))
  have h := h.step (l := 0) (.waitAll rfl)
  have h := h.step (l := 0) (.onExternal rfl (by decide))
  have h := h.step (l := 0) (.register rfl)
  have h := h.step (l := 0) (.takeMutex rfl rfl)
  have h := h.step (l := 0) (.unsatisfied rfl (by decide))
  have h := h.step (l := 0) (.block rfl)
  have h := h.step (l := 2) (.submit .submit rfl)
  have h := h.step (l := 2) (.exhausted rfl)
  have h := h.step (l := 1) (.bodyEnd rfl)
  have h := h.step (l := 1) (.lower rfl)
  have h := h.step (l := 1) (.scan false rfl)
  have h := h.step (l := 1) (.silent rfl (by decide))
  have h := h.step (l := 2) (.inlineEnd rfl)
  have h := h.step (l := 2) (.settle rfl)
  exact ⟨_, h, ⟨0, rfl⟩, rfl, by decide⟩

/-- The claim without the condition fails on that run. -/
theorem wait_all_stranded : ¬∀ s : State (Fin 3), Reachable (system (Fin 3)) s → ¬Stranded s := by
  obtain ⟨s, hr, hs⟩ := stranded_reachable
  exact fun h => h s hr hs

end Thunderbolt.Runtime.WaitAll
