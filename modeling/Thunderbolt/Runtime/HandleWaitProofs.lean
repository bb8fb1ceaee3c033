import Thunderbolt.Concurrent.Mutex
import Thunderbolt.Runtime.HandleWait

/-! Why a `wait(handle)` waiter is never left asleep.

`handle_wait_served`: in every reachable state, a thread blocked on a handle that
is complete has a completer on its way to `notify_all`. The scan in `complete()`
is thirty-four separate reads; what makes them enough is that a waiter past its
predicate check stays registered, at one place, until it is woken (`Registered`),
and that a completer of its index has not yet read past that place (`Pc.covers`). -/
namespace Thunderbolt.Runtime.HandleWait
open Concurrent

variable {Tid : Type} [DecidableEq Tid] {capacity : ℕ} {s s' : State Tid} {t u : Tid}

namespace State

@[simp] theorem goto_pc (s : State Tid) (t : Tid) (p : Pc) :
    (s.goto t p).pc = Function.update s.pc t p := rfl

@[simp] theorem goto_slots (s : State Tid) (t : Tid) (p : Pc) : (s.goto t p).slots = s.slots := rfl

@[simp] theorem goto_waiterSlots (s : State Tid) (t : Tid) (p : Pc) :
    (s.goto t p).waiterSlots = s.waiterSlots := rfl

@[simp] theorem goto_mutex (s : State Tid) (t : Tid) (p : Pc) : (s.goto t p).mutex = s.mutex := rfl

end State

/-! ### Reading a program counter -/

/-- Whether the reader holds the mutex, and where its thread is registered. -/
def Caller.place : Caller → Option Place
  | entry => none
  | predicate k => some k

namespace Pc

/-- The handle a thread inside `wait()` has seen resolve. -/
def awaited : Pc → Option TaskHandle
  | getting c h => c.place.map fun _ => h
  | reading _ h | rereading _ h _ | claiming h _ | raising h _
  | acquiring h _ | blocking h _ | blocked h _ | woken h _ | lowering h _ | leaving h _ => some h
  | _ => none

/-- The handle and the place of a registered waiter. -/
def registration : Pc → Option (TaskHandle × Place)
  | getting c h | reading c h | rereading c h _ => c.place.map fun k => (h, k)
  | raising h k | acquiring h k | blocking h k | blocked h k | woken h k | lowering h k
  | leaving h k => some (h, k)
  | _ => none

/-- Between the increment and the decrement of `handle_waiters_`. -/
def counted : Pc → Bool
  | getting c _ | reading c _ | rereading c _ _ => c.place.isSome
  | acquiring _ _ | blocking _ _ | blocked _ _ | woken _ _ | lowering _ _ => true
  | _ => false

/-- Registered in the overflow count. -/
def overflows (p : Pc) : Bool := p.registration.any fun r => !decide (r.2 < kMaxHandleWaiterSlots)

/-- Inside the critical section of `wait()`. -/
def holds : Pc → Bool
  | getting c _ | reading c _ | rereading c _ _ => c.place.isSome
  | blocking _ _ => true
  | _ => false

/-- Past a false predicate check, and not notified since. -/
def asleep : Pc → Bool
  | blocking _ _ | blocked _ _ => true
  | _ => false

/-- `complete()` between storing `Completed` and storing `Free`. -/
def ends (i : ℕ) : Pc → Bool
  | releasing h | bumped h => h.index == i
  | _ => false

def isBlocked : Pc → Bool
  | blocked _ _ => true
  | _ => false

/-- A completer at this counter still has to notify the waiter at `q`, who is
registered at place `k` for index `i`: it has not read past that place. -/
def covers (p : Pc) (i : ℕ) (k : Place) (q : Pc) : Bool := match p with
  | releasing g | bumped g | listing g | freed g | readWaiters g | readOverflow g => g.index == i
  | scanning g j => g.index == i && decide (j ≤ k) && decide (k < kMaxHandleWaiterSlots)
  | deciding w => w
  | locking => true
  | notifying => q.isBlocked
  | _ => false

end Pc

/-- A step moves its own thread; a notification also wakes the blocked ones. -/
theorem pc_other (hs : Step capacity t s s') (hu : u ≠ t) :
    s'.pc u = s.pc u ∨ (s.pc t = .notifying ∧ ∃ h k, s.pc u = .blocked h k ∧
      s'.pc u = .woken h k) := by
  cases hs
  case notifyAll hpc =>
    rw [State.goto_pc, Function.update_of_ne hu]
    cases hb : s.pc u
    case blocked h k => exact .inr ⟨hpc, h, k, rfl, by simp [State.wake, hb]⟩
    all_goals exact .inl (by simp [State.wake, hb])
  all_goals exact .inl (Function.update_of_ne hu ..)

/-! ### The mutex -/

/-- Who is in the critical section of `wait()`. -/
def State.inside (s : State Tid) (t : Tid) : Bool := (s.pc t).holds

theorem exclusive_step (h : Exclusive s.mutex s.inside) (hs : Step capacity t s s') :
    Exclusive s'.mutex s'.inside := by
  refine h.step (t := t) (fun u hu hin => ?_) ?_
  · rcases pc_other hs hu with hsame | ⟨_, _, _, _, hwoken⟩
    · rwa [State.inside, hsame] at hin
    · rw [State.inside, hwoken] at hin
      cases hin
  · cases hs
    case stale c _ _ _ => cases c <;> simp [State.inside, Pc.holds, Caller.found, Caller.unlock, Caller.place, *]
    case answerTrue c _ _ _ _ => cases c <;> simp [State.inside, Pc.holds, Caller.found, Caller.unlock, Caller.place, *]
    all_goals simp_all [State.inside, State.wake, State.setState, State.bump, State.setWaiterSlot, Pc.holds,
      Caller.place]

/-! ### Registrations -/

/-- A step of another thread leaves a waiter's registration as it is. -/
theorem waiter_other (hs : Step capacity t s s') (hu : u ≠ t) :
    (s'.pc u).awaited = (s.pc u).awaited ∧ (s'.pc u).registration = (s.pc u).registration := by
  rcases pc_other hs hu with h | ⟨_, h, k, hb, hw⟩
  · rw [h]; exact ⟨rfl, rfl⟩
  · rw [hb, hw]; exact ⟨rfl, rfl⟩

/-- A waiter's handle is one that resolved. -/
def Resolvable (capacity : ℕ) (s : State Tid) : Prop :=
  ∀ t h, (s.pc t).awaited = some h → h.valid = true ∧ h.index < capacity

theorem resolvable_step (hr : Resolvable capacity s) (hs : Step capacity t s s') :
    Resolvable capacity s' := by
  intro u h hu
  by_cases hut : u = t
  · subst hut
    have hmine := hr u
    cases hs
    case stale c _ hpc _ => cases c <;> simp_all [Pc.awaited, Caller.found, Caller.place]
    case resolved c _ hpc hres =>
      obtain rfl : _ = h := by simpa [Pc.awaited] using hu
      exact ⟨hres.1, hres.2.1⟩
    case answerTrue c _ _ hpc _ => cases c <;> simp_all [Pc.awaited, Caller.found]
    all_goals simp_all [Pc.awaited, State.wake, Caller.place]
  · exact hr u h ((waiter_other hs hut).1 ▸ hu)

/-- What a step does to its own thread's registration: nothing, drop it, or make
one at a free slot or in the overflow count. -/
theorem registration_own (hs : Step capacity t s s') :
    (s'.pc t).registration = (s.pc t).registration ∨ (s'.pc t).registration = none ∨
      (∃ h j, (s.pc t).awaited = some h ∧ (s'.pc t).registration = some (h, j) ∧
        s.waiterSlots j = kNoWaitedIndex ∧
        s'.waiterSlots = Function.update s.waiterSlots j h.index) ∨
      ∃ h, (s'.pc t).registration = some (h, kMaxHandleWaiterSlots) := by
  cases hs
  case stale c _ hpc _ => cases c <;> simp [hpc, Pc.registration, Caller.found, Caller.place]
  case answerTrue c _ _ hpc _ =>
    cases c <;> simp [hpc, Pc.registration, Caller.found, Caller.place]
  case claim h j hpc hj hfree =>
    exact .inr (.inr (.inl ⟨h, j, by rw [hpc]; rfl, by simp [Pc.registration], hfree, rfl⟩))
  case overflow h j hpc hj => exact .inr (.inr (.inr ⟨h, by simp [Pc.registration]⟩))
  all_goals simp_all [Pc.registration, State.wake, Caller.place]

/-- Slots are written by the thread that registers there, or leaves. -/
theorem waiterSlots_step (hs : Step capacity t s s') :
    s'.waiterSlots = s.waiterSlots ∨
      (∃ h j, s.waiterSlots j = kNoWaitedIndex ∧ (s'.pc t).registration = some (h, j) ∧
        s'.waiterSlots = Function.update s.waiterSlots j h.index) ∨
      ∃ h k, (s.pc t).registration = some (h, k) ∧ (s'.pc t).registration = none ∧
        k < kMaxHandleWaiterSlots ∧
        s'.waiterSlots = Function.update s.waiterSlots k kNoWaitedIndex := by
  cases hs
  case claim h j hpc hj hfree => exact .inr (.inl ⟨h, j, hfree, by simp [Pc.registration], rfl⟩)
  case leaveSlot h k hpc hk =>
    exact .inr (.inr ⟨h, k, by rw [hpc]; rfl, by simp [Pc.registration], hk, rfl⟩)
  all_goals exact .inl rfl

/-- A slot belongs to the one waiter registered there, and holds its index. -/
structure Registered (s : State Tid) : Prop where
  holds : ∀ t h k, (s.pc t).registration = some (h, k) → k < kMaxHandleWaiterSlots →
    s.waiterSlots k = h.index
  distinct : ∀ t u h g k, t ≠ u → (s.pc t).registration = some (h, k) →
    (s.pc u).registration = some (g, k) → ¬k < kMaxHandleWaiterSlots

theorem valid_index {h : TaskHandle} (hv : h.valid = true) : h.index ≠ kNoWaitedIndex := by
  simpa [TaskHandle.valid, TaskHandle.kInvalidIndex, kNoWaitedIndex] using hv

theorem awaited_of_registration {p : Pc} {h : TaskHandle} {k : Place}
    (hp : p.registration = some (h, k)) : p.awaited = some h := by
  cases p <;> simp_all [Pc.registration, Pc.awaited]

/-- A new registration does not land where another thread is registered. -/
theorem registration_apart (hr : Resolvable capacity s) (h : Registered s)
    (hs : Step capacity t s s') (hut : u ≠ t) {g g' : TaskHandle} {k : Place}
    (ht : (s'.pc t).registration = some (g, k)) (hu : (s.pc u).registration = some (g', k)) :
    ¬k < kMaxHandleWaiterSlots := by
  intro hk
  rcases registration_own hs with hsame | hnone | ⟨f, j, _, hnew, hfree, _⟩ | ⟨f, hnew⟩
  · exact h.distinct u t g' g k hut hu (hsame ▸ ht) hk
  · simp [hnone] at ht
  · obtain ⟨rfl, rfl⟩ : f = g ∧ j = k := by simpa using hnew.symm.trans ht
    have hv := (hr u g' (awaited_of_registration hu)).1
    exact valid_index hv ((h.holds u g' _ hu hk).symm.trans hfree)
  · obtain ⟨rfl, rfl⟩ : f = g ∧ kMaxHandleWaiterSlots = k := by simpa using hnew.symm.trans ht
    exact lt_irrefl _ hk

theorem registered_step (hr : Resolvable capacity s) (h : Registered s)
    (hs : Step capacity t s s') : Registered s' where
  holds u g k hu hk := by
    by_cases hut : u = t
    · subst hut
      rcases waiterSlots_step hs with hslots | ⟨f, j, _, hnew, hslots⟩ | ⟨_, _, _, hnone, _⟩
      · rcases registration_own hs with hsame | hnone | ⟨f, j, _, hnew, _, hslots⟩ | ⟨f, hnew⟩
        · rw [hslots]
          exact h.holds u g k (hsame ▸ hu) hk
        · simp [hnone] at hu
        · obtain ⟨rfl, rfl⟩ : f = g ∧ j = k := by simpa using hnew.symm.trans hu
          simp [hslots]
        · obtain ⟨rfl, rfl⟩ : f = g ∧ kMaxHandleWaiterSlots = k := by
            simpa using hnew.symm.trans hu
          exact absurd hk (lt_irrefl _)
      · obtain ⟨rfl, rfl⟩ : f = g ∧ j = k := by simpa using hnew.symm.trans hu
        simp [hslots]
      · simp [hnone] at hu
    · rw [(waiter_other hs hut).2] at hu
      have hmine := h.holds u g k hu hk
      have hv := valid_index (hr u g (awaited_of_registration hu)).1
      rcases waiterSlots_step hs with hslots | ⟨f, j, hfree, _, hslots⟩ | ⟨f, j, hold, _, hj, hslots⟩
      · rw [hslots, hmine]
      · have hkj : k ≠ j := by
          intro heq
          obtain rfl := heq
          exact hv (hmine.symm.trans hfree)
        rw [hslots, Function.update_of_ne hkj, hmine]
      · have hkj : k ≠ j := by
          intro heq
          obtain rfl := heq
          exact h.distinct u t g f _ hut hu hold hj
        rw [hslots, Function.update_of_ne hkj, hmine]
  distinct u v g f k huv hu hv := by
    by_cases hut : u = t
    · subst hut
      rw [(waiter_other hs huv.symm).2] at hv
      exact registration_apart hr h hs huv.symm hu hv
    · rw [(waiter_other hs hut).2] at hu
      by_cases hvt : v = t
      · subst hvt
        exact registration_apart hr h hs hut hv hu
      · rw [(waiter_other hs hvt).2] at hv
        exact h.distinct u v g f k huv hu hv

/-! ### The two counters -/

section Counters
variable [Fintype Tid]

/-- `handle_waiters_` counts the threads between its two updates, the overflow
count those registered beyond the slots. -/
structure Counted (s : State Tid) : Prop where
  handleWaiters : s.handleWaiters = count Pc.counted s.pc
  overflow : s.overflow = count Pc.overflows s.pc

omit [DecidableEq Tid] in
theorem counted_initial : Counted (initial : State Tid) := by
  have hw : count Pc.counted (initial : State Tid).pc = 0 := count_eq_zero.mpr fun _ => rfl
  have ho : count Pc.overflows (initial : State Tid).pc = 0 := count_eq_zero.mpr fun _ => rfl
  exact ⟨by rw [hw]; rfl, by rw [ho]; rfl⟩

omit [DecidableEq Tid] in
/-- Waking the blocked threads moves no thread in or out of either count. -/
theorem count_wake (s : State Tid) :
    count Pc.counted s.wake.pc = count Pc.counted s.pc ∧
      count Pc.overflows s.wake.pc = count Pc.overflows s.pc := by
  constructor <;>
  · apply count_congr
    intro u
    cases hb : s.pc u <;> simp [State.wake, hb, Pc.counted, Pc.overflows, Pc.registration]

theorem counted_step (h : Counted s) (hs : Step capacity t s s') : Counted s' := by
  have hw := h.handleWaiters
  have ho := h.overflow
  have hcw := count_update Pc.counted s.pc t
  have hco := count_update Pc.overflows s.pc t
  cases hs
  case notifyAll hpc =>
    have hw' : s.wake.pc t = .notifying := by simp [State.wake, hpc]
    constructor
    · show s.handleWaiters = count _ (Function.update s.wake.pc t .idle)
      rw [count_update_same (by rw [hw']; rfl), (count_wake s).1, hw]
    · show s.overflow = count _ (Function.update s.wake.pc t .idle)
      rw [count_update_same (by rw [hw']; rfl), (count_wake s).2, ho]
  case stale c _ hpc _ => cases c <;> constructor <;> grind [State.goto, Pc.counted, Pc.overflows,
    Pc.registration, Caller.place, Caller.found]
  case answerTrue c _ _ hpc _ => cases c <;> constructor <;> grind [State.goto, Pc.counted,
    Pc.overflows, Pc.registration, Caller.place, Caller.found]
  all_goals
    constructor
    · grind [State.goto, State.setState, State.bump, State.setWaiterSlot, Pc.counted, Caller.place]
    · grind [State.goto, State.setState, State.bump, State.setWaiterSlot, Pc.overflows,
        Pc.registration, Caller.place]

end Counters

/-! ### The end of a task, and who announces it -/

/-- A slot is `Completed` only while a completer is between its two stores. -/
def Ended (s : State Tid) : Prop :=
  ∀ i, (s.slots i).state = .Completed → ∃ u, (s.pc u).ends i = true

/-- A step that leaves a slot `Completed` stored it, or found it so and is not the
completer's store of `Free`. -/
theorem completed_step (hs : Step capacity t s s') {i : ℕ}
    (hc : (s'.slots i).state = .Completed) :
    (s'.pc t).ends i = true ∨
      ((s.slots i).state = .Completed ∧ ((s.pc t).ends i = true → (s'.pc t).ends i = true)) := by
  cases hs <;> simp_all [State.setState, State.bump, State.setWaiterSlot, State.wake, Pc.ends,
    Function.update_apply] <;> grind

theorem ended_step (h : Ended s) (hs : Step capacity t s s') : Ended s' := by
  intro i hi
  rcases completed_step hs hi with ht | ⟨hold, hkeep⟩
  · exact ⟨t, ht⟩
  · obtain ⟨u, hu⟩ := h i hold
    by_cases hut : u = t
    · subst hut
      exact ⟨u, hkeep hu⟩
    · rcases pc_other hs hut with hsame | ⟨_, _, _, hb, _⟩
      · exact ⟨u, hsame ▸ hu⟩
      · simp [hb, Pc.ends] at hu

/-! ### Every waiter is served -/

omit [DecidableEq Tid] in
theorem complete_iff {h : TaskHandle} (hv : h.valid = true ∧ h.index < capacity) :
    Complete capacity s h ↔
      (s.slots h.index).generation ≠ h.generation ∨ (s.slots h.index).state = .Completed := by
  simp [Complete, Resolves, hv.1, hv.2]

/-- The steps that make a handle complete are the two publications of a completer. -/
theorem complete_step (hs : Step capacity t s s') {h : TaskHandle}
    (hv : h.valid = true ∧ h.index < capacity) (hn : ¬Complete capacity s h)
    (hc : Complete capacity s' h) : (s'.pc t).ends h.index = true := by
  rw [complete_iff hv] at hn hc
  cases hs <;> simp_all [State.setState, State.bump, State.setWaiterSlot, State.wake, Pc.ends,
    Function.update_apply] <;> grind

/-- A registered waiter past its predicate check on a complete handle has a
completer that will notify it. -/
def Covered (capacity : ℕ) (s : State Tid) : Prop :=
  ∀ t h k, (s.pc t).asleep = true → (s.pc t).registration = some (h, k) →
    Complete capacity s h → ∃ u, (s.pc u).covers h.index k (s.pc t) = true

theorem Pc.covers_of_ends {p q : Pc} {i : ℕ} {k : Place} (h : p.ends i = true) :
    p.covers i k q = true := by
  cases p <;> simp_all [ends, covers]

/-- Blocking only widens who may still notify the waiter. -/
theorem Pc.covers_blocked {p q : Pc} {i : ℕ} {k : Place} {h : TaskHandle}
    (hc : p.covers i k q = true) : p.covers i k (.blocked h k) = true := by
  cases p <;> simp_all [covers, isBlocked]

/-- A thread falls asleep by a predicate check whose second read of the generation
found the handle's own; asleep, it can only go from blocking to blocked. -/
theorem asleep_before (hs : Step capacity t s s') (hu : (s'.pc u).asleep = true) {h : TaskHandle}
    {k : Place} (hreg : (s'.pc u).registration = some (h, k)) :
    ((s.pc u).asleep = true ∧ (s.pc u).registration = some (h, k) ∧
      (s'.pc u = s.pc u ∨ s'.pc u = .blocked h k)) ∨
    (u = t ∧ (s.slots h.index).generation = h.generation ∧ s'.slots = s.slots ∧
      (s.pc u).registration = some (h, k)) := by
  by_cases hut : u = t
  · subst hut
    cases hs
    case answerFalse hpc hgen hx =>
      obtain ⟨rfl, rfl⟩ : _ = h ∧ _ = k := by simpa [Pc.registration] using hreg
      exact .inr ⟨rfl, hgen, rfl, by simp [hpc, Pc.registration, Caller.place]⟩
    case block hpc =>
      obtain ⟨rfl, rfl⟩ : _ = h ∧ _ = k := by simpa [Pc.registration] using hreg
      exact .inl ⟨by simp [hpc, Pc.asleep], by simp [hpc, Pc.registration], .inr (by simp)⟩
    case stale c _ hpc _ => cases c <;> simp [Pc.asleep, Caller.found] at hu
    case answerTrue c _ _ hpc _ => cases c <;> simp [Pc.asleep, Caller.found] at hu
    all_goals simp_all [Pc.asleep]
  · rcases pc_other hs hut with h' | ⟨_, _, _, _, hw⟩
    · rw [h'] at hu hreg
      exact .inl ⟨hu, hreg, .inl h'⟩
    · simp [hw, Pc.asleep] at hu

/-- What a completer reads of a waiter asleep at place `k` for index `i`. -/
structure Visible (s : State Tid) (i : ℕ) (k : Place) : Prop where
  counted : s.handleWaiters ≠ 0
  overflows : ¬k < kMaxHandleWaiterSlots → s.overflow ≠ 0
  slot : k < kMaxHandleWaiterSlots → s.waiterSlots k = i

omit [DecidableEq Tid] in
theorem visible [Fintype Tid] (hr : Registered s) (hn : Counted s) (hu : (s.pc u).asleep = true)
    {h : TaskHandle} {k : Place} (hreg : (s.pc u).registration = some (h, k)) :
    Visible s h.index k where
  counted := by
    rw [hn.handleWaiters]
    refine (count_pos (t := u) ?_).ne'
    cases hp : s.pc u <;> simp_all [Pc.asleep, Pc.counted]
  overflows hk := by
    rw [hn.overflow]
    refine (count_pos (t := u) ?_).ne'
    simp [Pc.overflows, hreg, hk]
  slot := hr.holds u h k hreg

/-- A completer that still has to notify `u` keeps that duty over its own step,
or discharges it. -/
theorem covers_own {i : ℕ} {k : Place} (hx : Exclusive s.mutex s.inside) (hv : Visible s i k)
    (hs : Step capacity t s s') (hut : u ≠ t) (hu : (s.pc u).asleep = true)
    (hc : (s.pc t).covers i k (s.pc u) = true) :
    (s'.pc t).covers i k (s.pc u) = true ∨ (s'.pc u).asleep = false := by
  have hfree : s.mutex = none → (s.pc u).isBlocked = true := by
    intro hm
    cases hp : s.pc u <;> simp_all [Pc.asleep, Pc.isBlocked]
    have := hx u (by rw [State.inside, hp]; rfl)
    simp_all
  cases hs
  case notifyAll hpc =>
    right
    simp only [hpc, Pc.covers] at hc
    rw [State.goto_pc, Function.update_of_ne hut]
    cases hp : s.pc u <;> simp_all [Pc.isBlocked, State.wake, Pc.asleep]
  case nobody hpc h0 => exact absurd h0 hv.counted
  case slotsOnly hpc h0 =>
    have hk : k < kMaxHandleWaiterSlots := not_not.mp fun hk => hv.overflows hk h0
    left
    simp_all [Pc.covers]
  case miss h j hpc hj hne =>
    simp only [hpc, Pc.covers, Bool.and_eq_true, beq_iff_eq, decide_eq_true_eq] at hc
    obtain ⟨⟨rfl, hjk⟩, hk⟩ := hc
    have hjk' : j ≠ k := by
      intro heq
      obtain rfl := heq
      exact hne (hv.slot hk)
    left
    simp only [State.goto_pc, Function.update_self, Pc.covers, Bool.and_eq_true, beq_self_eq_true, decide_eq_true_eq]
    exact ⟨⟨trivial, by omega⟩, hk⟩
  case scanned h j hpc hj =>
    simp only [hpc, Pc.covers, Bool.and_eq_true, beq_iff_eq, decide_eq_true_eq] at hc
    exact absurd (hc.1.2.trans_lt hc.2) hj
  all_goals
    left
    simp_all [Pc.covers]

theorem covered_step [Fintype Tid] (hx : Exclusive s.mutex s.inside) (hv : Resolvable capacity s)
    (hr : Registered s) (hn : Counted s) (he : Ended s) (h : Covered capacity s)
    (hs : Step capacity t s s') : Covered capacity s' := by
  intro u g k hu hreg hc
  -- A coverer other than the stepping thread stays where it is: it is not blocked.
  have hother : ∀ {v q}, v ≠ t → (s.pc v).covers g.index k q = true →
      (s'.pc v).covers g.index k q = true := by
    intro v q hvt hv
    rcases pc_other hs hvt with h' | ⟨_, _, _, hb, _⟩
    · rw [h']; exact hv
    · simp [hb, Pc.covers] at hv
  rcases asleep_before hs hu hreg with ⟨hbefore, hreg₀, hpc⟩ | ⟨rfl, hgen, hslots, hreg₀⟩
  · have hg := hv u g (awaited_of_registration hreg₀)
    by_cases hold : Complete capacity s g
    · obtain ⟨v, hcov⟩ := h u g k hbefore hreg₀ hold
      refine ⟨v, ?_⟩
      have hkeep : (s'.pc v).covers g.index k (s.pc u) = true := by
        by_cases hvt : v = t
        · subst hvt
          have huv : u ≠ v := by
            intro heq
            obtain rfl := heq
            cases hp : s.pc u <;> simp_all [Pc.asleep, Pc.covers]
          refine (covers_own hx (visible hr hn hbefore hreg₀) hs huv hbefore hcov).resolve_right ?_
          simp [hu]
        · exact hother hvt hcov
      rcases hpc with hpc | hpc
      · rw [hpc]; exact hkeep
      · rw [hpc]; exact Pc.covers_blocked hkeep
    · exact ⟨t, Pc.covers_of_ends (complete_step hs hg hold hc)⟩
  · -- The generation was still the handle's: only a completer between its stores explains it.
    have hg := hv u g (awaited_of_registration hreg₀)
    rw [complete_iff hg, hslots] at hc
    obtain ⟨v, hends⟩ := he g.index (hc.resolve_left (not_not.mpr hgen))
    have hvu : v ≠ u := by
      intro heq
      obtain rfl := heq
      cases hp : s.pc v <;> simp_all [Pc.ends, Pc.registration]
    exact ⟨v, hother hvu (Pc.covers_of_ends hends)⟩

/-! ### Over every run -/

/-- What holds of every reachable state. -/
structure Inv [Fintype Tid] (capacity : ℕ) (s : State Tid) : Prop where
  exclusive : Exclusive s.mutex s.inside
  resolvable : Resolvable capacity s
  registered : Registered s
  counted : Counted s
  ended : Ended s
  covered : Covered capacity s

omit [DecidableEq Tid] in
theorem inv_initial [Fintype Tid] : Inv capacity (initial : State Tid) where
  exclusive _ ht := nomatch ht
  resolvable _ _ ht := nomatch ht
  registered := ⟨fun _ _ _ ht => (nomatch ht), fun _ _ _ _ _ _ ht => (nomatch ht)⟩
  counted := counted_initial
  ended _ hi := nomatch hi
  covered _ _ _ ht := nomatch ht

theorem inv_reachable [Fintype Tid] (h : Reachable (system Tid capacity) s) : Inv capacity s := by
  refine h.invariant (P := Inv capacity) ?_ ?_
  · intro _ hi
    obtain rfl := hi
    exact inv_initial
  · intro t s s' _ hi hs
    exact
      { exclusive := exclusive_step hi.exclusive hs
        resolvable := resolvable_step hi.resolvable hs
        registered := registered_step hi.resolvable hi.registered hs
        counted := counted_step hi.counted hs
        ended := ended_step hi.ended hs
        covered := covered_step hi.exclusive hi.resolvable hi.registered hi.counted hi.ended
          hi.covered hs }

/-- **No lost wakeup for `wait(handle)`**: a thread blocked on a handle that is
complete has a completer on its way to `notify_all`, and no step of that completer
loses it before the thread is woken. -/
theorem handle_wait_served [Fintype Tid] (hr : Reachable (system Tid capacity) s) {h : TaskHandle}
    {k : Place} (hb : s.pc t = .blocked h k) (hc : Complete capacity s h) :
    ∃ u, (s.pc u).covers h.index k (s.pc t) = true ∧ ∀ s', Step capacity u s s' →
      (s'.pc u).covers h.index k (s'.pc t) = true ∨ s'.pc t = .woken h k := by
  have hi := inv_reachable hr
  have hsleep : (s.pc t).asleep = true := by rw [hb]; rfl
  have hreg : (s.pc t).registration = some (h, k) := by rw [hb]; rfl
  obtain ⟨u, hu⟩ := hi.covered t h k hsleep hreg hc
  refine ⟨u, hu, fun s' hs => ?_⟩
  have htu : t ≠ u := by
    intro heq
    obtain rfl := heq
    simp [hb, Pc.covers] at hu
  rcases pc_other hs htu with hsame | ⟨_, g, j, hb', hw⟩
  · left
    rw [hsame]
    refine (covers_own hi.exclusive (visible hi.registered hi.counted hsleep hreg) hs htu hsleep
      hu).resolve_right ?_
    simp [hsame, hsleep]
  · right
    obtain ⟨rfl, rfl⟩ : g = h ∧ j = k := by simpa using hb'.symm.trans hb
    exact hw

/-- The theorem on a run: thread 0 is blocked in slot 0 when the worker stores
`Completed`. -/
theorem handle_wait_served_stored : ∃ s : State (Fin 3), Reachable (system (Fin 3) 1) s ∧
    s.pc 0 = .blocked ⟨0, 0⟩ 0 ∧ Complete 1 s ⟨0, 0⟩ ∧ ∃ u, (s.pc u).covers 0 0 (s.pc 0) = true := by
  have h : Reachable (system (Fin 3) 1) initial := .initial rfl
  have h := h.step (l := 2) (.acquire 0 rfl (by decide) rfl)
  have h := h.step (l := 2) (.publish rfl)
  have h := h.step (l := 1) (.execute 0 rfl (by decide) rfl)
  have h := h.step (l := 0) (.wait ⟨0, 0⟩ rfl)
  have h := h.step (l := 0) (.resolved rfl ⟨rfl, by decide, rfl⟩)
  have h := h.step (l := 0) (.read rfl)
  have h := h.step (l := 0) (.external rfl rfl (by decide))
  have h := h.step (l := 0) (.claim rfl (by decide) rfl)
  have h := h.step (l := 0) (.raise rfl)
  have h := h.step (l := 0) (.takeMutex rfl rfl)
  have h := h.step (l := 0) (.resolved rfl ⟨rfl, by decide, rfl⟩)
  have h := h.step (l := 0) (.read rfl)
  have h := h.step (l := 0) (.answerFalse rfl rfl (by decide))
  have h := h.step (l := 0) (.block rfl)
  have h := h.step (l := 1) (.bodyEnd rfl)
  have h := h.step (l := 1) (.complete rfl)
  obtain ⟨u, hu, _⟩ := handle_wait_served h (t := 0) (h := ⟨0, 0⟩) (k := 0) rfl (.inr rfl)
  exact ⟨_, h, rfl, .inr rfl, u, hu⟩

end Thunderbolt.Runtime.HandleWait
