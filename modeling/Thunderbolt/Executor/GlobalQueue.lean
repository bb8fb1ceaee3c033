import Thunderbolt.Concurrent.Mutex
import Thunderbolt.Executor.ReadyQueues

/-! The global queue, with the counter kept outside its lock.

The five queues are touched under `mutex_` only. The counter is also read without
it: by `pop`, to return early, and by `size_hint`. It is raised after the task is
in and lowered after the task is out, in the same critical section. -/
namespace Thunderbolt.Executor.GlobalQueue
open Concurrent

/-- Where a thread stands in `push` or `pop_with_priority`. -/
inductive Pc where
  | idle
  /-- `push`: about to lock and append. -/
  | pushing (h : TaskHandle) (p : TaskPriority)
  /-- `push`: about to raise the counter and unlock. -/
  | counting
  | pushed
  /-- `pop`: about to read the counter. -/
  | reading (lowestFirst : Bool)
  /-- `pop`: about to lock and take. -/
  | popping (lowestFirst : Bool)
  /-- `pop`: about to lower the counter and unlock. -/
  | uncounting (h : TaskHandle) (p : TaskPriority)
  | popped (r : Option (TaskHandle × TaskPriority))

structure State (Thread : Type*) where
  queues : ReadyQueues
  /-- `count_`. -/
  count : ℕ
  mutex : Option Thread
  pc : Thread → Pc

variable {Thread : Type*} [DecidableEq Thread]

def State.pcAt (s : State Thread) (t : Thread) (p : Pc) : State Thread :=
  {s with pc := Function.update s.pc t p}

/-- One step of the thread `t` inside an operation. -/
inductive Step : Thread → State Thread → State Thread → Prop where
  | append {s t h p} : s.pc t = .pushing h p → s.mutex = none →
      Step t s ({s with mutex := some t, queues := s.queues.push h p}.pcAt t .counting)
  | count {s t} : s.pc t = .counting →
      Step t s ({s with mutex := none, count := s.count + 1}.pcAt t .pushed)
  /-- The unsynchronised early-out. -/
  | none {s t l} : s.pc t = .reading l → s.count = 0 → Step t s (s.pcAt t (.popped none))
  | some {s t l} : s.pc t = .reading l → s.count ≠ 0 → Step t s (s.pcAt t (.popping l))
  | empty {s t l} : s.pc t = .popping l → s.mutex = none → s.queues.pop l = none →
      Step t s (s.pcAt t (.popped none))
  | take {s t l h p q} : s.pc t = .popping l → s.mutex = none → s.queues.pop l = some (h, p, q) →
      Step t s ({s with mutex := some t, queues := q}.pcAt t (.uncounting h p))
  | uncount {s t h p} : s.pc t = .uncounting h p →
      Step t s ({s with mutex := none, count := s.count - 1}.pcAt t (.popped (some (h, p))))

def initial : State Thread := ⟨.empty, 0, none, fun _ => .idle⟩

variable {s s' : State Thread} {t : Thread}

/-- Holds `mutex_`. -/
def Pc.holds : Pc → Bool
  | counting | uncounting _ _ => true
  | _ => false

/-- Who is in the critical section. -/
def State.inside (s : State Thread) (t : Thread) : Bool := (s.pc t).holds

/-- By how much the counter differs from the number of tasks, seen from `p`. -/
def Pc.Balances (count total : ℕ) : Pc → Prop
  | counting => total = count + 1
  | uncounting _ _ => count = total + 1
  | _ => False

/-- The counter is the number of tasks, but for the operation that holds the mutex. -/
structure Balanced (s : State Thread) : Prop where
  free : s.mutex = none → s.count = s.queues.total
  held : ∀ t, s.mutex = some t → (s.pc t).Balances s.count s.queues.total
  holder : Exclusive s.mutex s.inside

omit [DecidableEq Thread] in
theorem balanced_initial : Balanced (initial : State Thread) := by
  exact ⟨fun _ => rfl, fun _ h => (nomatch h), fun _ h => (nomatch h)⟩

/-- Another thread's step leaves a thread where it is. -/
theorem pc_other (hs : Step t s s') {u : Thread} (hu : u ≠ t) : s'.pc u = s.pc u := by
  cases hs <;> exact Function.update_of_ne hu ..

/-- Only a thread inside an operation takes steps. -/
theorem pc_mover (hs : Step t s s') : s.pc t ≠ .idle := by
  intro hidle
  cases hs <;> simp_all

theorem inside_other (hs : Step t s s') {u : Thread} (hu : u ≠ t) (hin : s'.inside u = true) :
    s.inside u = true := by
  rwa [State.inside, pc_other hs hu] at hin

/-- Calling an operation, and taking its result. -/
theorem Balanced.pcAt (h : Balanced s) {p : Pc} (hold : (s.pc t).holds = false)
    (hp : p.holds = false) : Balanced (s.pcAt t p) := by
  refine ⟨h.free, fun u hu => ?_, h.holder.mono fun u hu => ?_⟩
  · rcases eq_or_ne u t with rfl | hne
    · have hbal := h.held u hu
      cases hpc : s.pc u <;> simp_all [Pc.Balances, Pc.holds]
    · simpa [State.pcAt, hne] using h.held u hu
  · rcases eq_or_ne u t with rfl | hne
    · simp [State.inside, State.pcAt, hp] at hu
    · simpa [State.inside, State.pcAt, hne] using hu

theorem balanced_step (h : Balanced s) (hs : Step t s s') : Balanced s' := by
  have hothers : ∀ u, u ≠ t → s'.inside u = true → s.inside u = true := fun u => inside_other hs
  cases hs
  case append g p hfree hpc =>
    have hcount := h.free hfree
    refine ⟨fun hn => (nomatch hn), fun u hu => ?_, h.holder.step hothers (.inr (.inl ⟨hfree, rfl⟩))⟩
    obtain rfl : t = u := Option.some.inj hu
    simp [State.pcAt, Pc.Balances, ReadyQueues.total_push, hcount]
  case take l g p q hfree hpop hpc =>
    have hcount := h.free hfree
    refine ⟨fun hn => (nomatch hn), fun u hu => ?_, h.holder.step hothers (.inr (.inl ⟨hfree, rfl⟩))⟩
    obtain rfl : t = u := Option.some.inj hu
    simp [State.pcAt, Pc.Balances, hcount, ReadyQueues.total_pop hpop]
  case count hpc =>
    have hin : s.inside t = true := by rw [State.inside, hpc]; rfl
    have hbal := h.held t (h.holder t hin)
    rw [hpc] at hbal
    refine ⟨fun _ => hbal.symm, fun u hu => (nomatch hu), h.holder.step hothers (.inr (.inr ⟨hin, ?_⟩))⟩
    simp [State.inside, State.pcAt, Pc.holds]
  case uncount g p hpc =>
    have hin : s.inside t = true := by rw [State.inside, hpc]; rfl
    have hbal := h.held t (h.holder t hin)
    rw [hpc] at hbal
    refine ⟨fun _ => ?_, fun u hu => (nomatch hu), h.holder.step hothers (.inr (.inr ⟨hin, ?_⟩))⟩
    · show s.count - 1 = s.queues.total
      have : s.count = s.queues.total + 1 := hbal
      omega
    · simp [State.inside, State.pcAt, Pc.holds]
  case none l _ hpc => exact h.pcAt (by rw [hpc]; rfl) rfl
  case some l _ hpc => exact h.pcAt (by rw [hpc]; rfl) rfl
  case empty l _ _ hpc => exact h.pcAt (by rw [hpc]; rfl) rfl

omit [DecidableEq Thread] in
/-- A task the counter does not show is one a push is about to count. -/
theorem Balanced.counting_of_hidden (h : Balanced s) (hcount : s.count = 0)
    (htotal : s.queues.total ≠ 0) : ∃ t, s.pc t = .counting := by
  cases hm : s.mutex with
  | none => exact absurd ((h.free hm).symm.trans hcount) htotal
  | some t =>
    have hbal := h.held t hm
    refine ⟨t, ?_⟩
    cases hpc : s.pc t <;> simp_all [Pc.Balances]

/-- Between a push and the end of its call. -/
def Pc.announcing : Pc → Bool
  | counting | pushed => true
  | _ => false

/-- A task that is new in the queue is being announced. -/
theorem total_step (hs : Step t s s') (htotal : s'.queues.total ≠ 0) :
    s.queues.total ≠ 0 ∨ (s'.pc t).announcing = true := by
  cases hs
  case append => exact .inr (by simp [State.pcAt, Pc.announcing])
  case take hpop _ =>
    left
    rw [ReadyQueues.total_pop hpop]
    exact Nat.succ_ne_zero _
  all_goals exact .inl htotal

/-- No step inside an operation ends an announcement. -/
theorem announcing_step (hs : Step t s s') {u : Thread} (hu : (s.pc u).announcing = true) :
    (s'.pc u).announcing = true := by
  rcases eq_or_ne u t with rfl | hne
  · cases hs <;> simp_all [State.pcAt, Pc.announcing]
  · rwa [pc_other hs hne]

end Thunderbolt.Executor.GlobalQueue
