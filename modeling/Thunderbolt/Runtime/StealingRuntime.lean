import Thunderbolt.Runtime.OnScheduler
import Thunderbolt.Runtime.Shown
import Thunderbolt.Scheduler.Flow

/-! `ThunderboltRuntime` as a whole, in its stealing modes.

The threads, and the deques, the global queue and the parking they share. A task is ready once its
`enqueue_ready` has begun, and a worker has a task once `acquire_next` has, for its loop or for a wait that
helps. Otherwise either side goes on by itself: a thread in `enqueue_ready`, and a worker outside its task, is
in the scheduler; who is not makes its own calls. The destructor waits for `outstanding_` to be zero and stops
the workers; nobody submits then (`Act.Closes`). -/
namespace Thunderbolt.Runtime.StealingRuntime
open Concurrent Lifecycle Executor Scheduler

structure State (n : ℕ) (External Call : Type) where
  threads : HelpOnWait.State (Fin n ⊕ External) Call
  scheduler : Stealing.State n External

inductive Act (n : ℕ) (External Call : Type) where
  /-- Outside the scheduler. -/
  | run (a : HelpOnWait.Act (Fin n ⊕ External) Call)
  /-- In the scheduler. -/
  | schedule (a : Stealing.Act n External)
  /-- `enqueue_ready` begins. -/
  | enqueue (θ : Fin n ⊕ External)
  /-- `worker_loop` has a task. -/
  | pop (w : Fin n)
  /-- `try_execute_one` has. -/
  | help (w : Fin n) (c : Call)

variable {n : ℕ} {External Call : Type}

/-- The thread is not in the scheduler. -/
def State.Outside (s : State n External Call) : Fin n ⊕ External → Prop
  | .inl w => s.scheduler.work w = .executing ∧ s.scheduler.park.waker (.inl w) = .idle
  | .inr e => s.scheduler.global.pc (.inr e) = .idle ∧ s.scheduler.park.waker (.inr e) = .idle

variable [DecidableEq External] [DecidableEq Call]

inductive Step (pool : PoolConfig) (cfg : Stealing.RuntimeConfig) :
    Act n External Call → State n External Call → State n External Call → Prop where
  | run {s a r} : HelpOnWait.Step pool a s.threads r → r.runtime.ready = s.threads.runtime.ready →
      s.Outside a.thread → (∀ w, a.thread = .inl w → ¬s.threads.Loops (.inl w)) →
      Step pool cfg (.run a) s {s with threads := r}
  /-- Inside `acquire_next`, `enqueue_ready` or `park_worker`. -/
  | work {s w q} : Stealing.Step cfg (.work w) s.scheduler q → s.scheduler.work w ≠ .executing →
      (∀ h, ¬Stealing.Takes s.scheduler q w h) → Step pool cfg (.schedule (.work w)) s {s with scheduler := q}
  /-- The task has been executed. -/
  | finish {s w q} : Stealing.Step cfg (.work w) s.scheduler q → s.scheduler.work w = .executing →
      q.work w = .looking 0 → s.threads.Loops (.inl w) →
      Step pool cfg (.schedule (.work w)) s {s with scheduler := q}
  /-- `try_execute_one` is called. -/
  | wait {s w q} : Stealing.Step cfg (.work w) s.scheduler q → s.scheduler.work w = .executing →
      q.work w = .acquiring .wait → s.threads.Waits (.inl w) →
      Step pool cfg (.schedule (.work w)) s {s with scheduler := q}
  | other {s a q} : Stealing.Step cfg a s.scheduler q → (∀ w, a ≠ .work w) →
      (∀ e, a = .submit e → s.scheduler.global.pc (.inr e) ≠ .idle) →
      Step pool cfg (.schedule a) s {s with scheduler := q}
  | enqueue {s w h p q r} : s.scheduler.work w = .executing → Stealing.Step cfg (.work w) s.scheduler q →
      q.work w = .enqueueing h p → s.threads.Offers (.inl w) h →
      HelpOnWait.Step pool (.step (.inl w)) s.threads r → r.runtime.ready = h ::ₘ s.threads.runtime.ready →
      Step pool cfg (.enqueue (.inl w)) s ⟨r, q⟩
  | submit {s e h p q r} : s.scheduler.global.pc (.inr e) = .idle → Stealing.Step cfg (.submit e) s.scheduler q →
      q.global.pc (.inr e) = .pushing h p → s.threads.Offers (.inr e) h →
      HelpOnWait.Step pool (.step (.inr e)) s.threads r → r.runtime.ready = h ::ₘ s.threads.runtime.ready →
      Step pool cfg (.enqueue (.inr e)) s ⟨r, q⟩
  | pop {s w h q r} : s.threads.Loops (.inl w) → Stealing.Step cfg (.work w) s.scheduler q →
      Stealing.Takes s.scheduler q w h → HelpOnWait.Step pool (.step (.inl w)) s.threads r →
      s.threads.runtime.ready = h ::ₘ r.runtime.ready → Step pool cfg (.pop w) s ⟨r, q⟩
  | help {s w c h q r} : Stealing.Step cfg (.work w) s.scheduler q → Stealing.Takes s.scheduler q w h →
      HelpOnWait.Step pool (.help (.inl w) c) s.threads r →
      s.threads.runtime.ready = h ::ₘ r.runtime.ready → Step pool cfg (.help w c) s ⟨r, q⟩

structure Initial (base : Fin n ⊕ External → Call) (s : State n External Call) : Prop where
  threads : s.threads = HelpOnWait.initial base
  scheduler : Stealing.Initial s.scheduler

/-- The runtime with `m + 1` workers. -/
def system (pool : PoolConfig) (cfg : Stealing.RuntimeConfig) {m : ℕ} (base : Fin (m + 1) ⊕ External → Call) :
    System (State (m + 1) External Call) (Act (m + 1) External Call) :=
  ⟨Initial base, Step pool cfg⟩

omit [DecidableEq External] [DecidableEq Call] in
/-- What the threads do in it. -/
def Act.runs : Act n External Call → Option (HelpOnWait.Act (Fin n ⊕ External) Call)
  | run a => some a
  | schedule _ => none
  | enqueue θ => some (.step θ)
  | pop w => some (.step (.inl w))
  | help w c => some (.help (.inl w) c)

/-- What the threads do is as `C` says. -/
def Act.Meets (C : HelpOnWait.Act (Fin n ⊕ External) Call → HelpOnWait.State (Fin n ⊕ External) Call → Prop)
    (a : Act n External Call) (s : State n External Call) : Prop :=
  ∀ b, a.runs = some b → C b s.threads

/-- The destructor stops the workers where nothing is outstanding, and no thread submits any more. -/
structure Act.Closes (a : Act n External Call) (s : State n External Call) : Prop where
  stop : a = .schedule (.park .stop) → s.threads.runtime.outstanding = 0
  submit : s.scheduler.park.running = false → ∀ θ deps, a ≠ .run (.submit θ deps)

/-- As `C` says, and with the destructor at the end. -/
structure Act.Ends (C : HelpOnWait.Act (Fin n ⊕ External) Call → HelpOnWait.State (Fin n ⊕ External) Call → Prop)
    (a : Act n External Call) (s : State n External Call) : Prop where
  meets : a.Meets C s
  closes : a.Closes s

/-- The worker is in a task, or in `try_execute_one`. -/
def Inside {n : ℕ} : Stealing.Work n → Prop
  | .executing | .acquiring .wait | .aging .wait | .scanning .wait _ | .probing .wait _ _ _ | .popping .wait _ _
  | .draining .wait | .stealing .wait _ => True
  | _ => False

/-- A task has not ended, every thread waits, and each worker sleeps, or is in a task and there is nothing
to take. -/
structure Stuck (pool : PoolConfig) (s : State n External Call) : Prop where
  unfinished : ∃ t < s.threads.runtime.submitted,
    (s.threads.runtime.sub t).ended = false ∧ (s.threads.runtime.sub t).threw = false
  blocked : ∀ θ, HelpOnWait.Blocked pool s.threads (s.threads.stack θ)
  quiet : ∀ t, Stealing.Quiet s.scheduler t
  calls : ∀ t, (s.scheduler.global.pc t).hand = 0
  workers : ∀ w, s.scheduler.park.sleeper w = .blocked ∨ Inside (s.scheduler.work w) ∧
    s.scheduler.global.queues.total = 0 ∧ ∀ x, AbpDeque.Drained (s.scheduler.deques x)

variable {pool : PoolConfig} {cfg : Stealing.RuntimeConfig}

/-! ### The two sides -/

section Sides
variable {a : Act n External Call} {s s' : State n External Call}

theorem threads_step (hs : Step pool cfg a s s') :
    s'.threads = s.threads ∧ a.runs = none ∨ ∃ b, a.runs = some b ∧ HelpOnWait.Step pool b s.threads s'.threads := by
  cases hs with
  | run hs | enqueue _ _ _ _ hs | submit _ _ _ _ hs | pop _ _ _ hs | help _ _ hs => exact .inr ⟨_, rfl, hs⟩
  | _ => exact .inl ⟨rfl, rfl⟩

theorem scheduler_step (hs : Step pool cfg a s s') :
    s'.scheduler = s.scheduler ∨
      ∃ b, Stealing.Step cfg b s.scheduler s'.scheduler ∧ (b = .park .stop → a = .schedule b) := by
  cases hs with
  | run => exact .inl rfl
  | other hs => exact .inr ⟨_, hs, fun _ => rfl⟩
  | work hs | finish hs | wait hs | enqueue _ hs | submit _ hs | pop _ hs | help hs => exact .inr ⟨_, hs, nofun⟩

end Sides

variable {m : ℕ} {a : Act (m + 1) External Call} {s s' : State (m + 1) External Call}

/-- Each side sees a run of its own. -/
theorem threads_reachable {base : Fin (m + 1) ⊕ External → Call}
    {C : HelpOnWait.Act (Fin (m + 1) ⊕ External) Call → HelpOnWait.State (Fin (m + 1) ⊕ External) Call → Prop}
    (h : Reachable ((system pool cfg base).restrict (Act.Meets C)) s) :
    Reachable ((HelpOnWait.system pool base).restrict C) s.threads := by
  refine h.map State.threads (fun _ (hi : Initial base _) => hi.threads) fun a s s' hs => ?_
  exact (threads_step hs.1).imp And.left fun ⟨b, hb, hstep⟩ => ⟨b, hstep, hs.2 b hb⟩

theorem scheduler_reachable {base : Fin (m + 1) ⊕ External → Call} (h : Reachable (system pool cfg base) s) :
    Reachable (Stealing.system cfg m External) s.scheduler := by
  refine h.map State.scheduler (fun _ (hi : Initial base _) => hi.scheduler) fun a s s' hs => ?_
  exact (scheduler_step hs).imp_right fun ⟨b, hstep, _⟩ => ⟨b, hstep⟩

/-! ### What the whole shows -/

omit [DecidableEq External] [DecidableEq Call] in
def event (s s' : State n External Call) (a : Act n External Call) : Option (Executor.Event ℕ) :=
  a.runs.bind (HelpOnWait.event s.threads s'.threads)

/-- A step, when no slot has been released `2^32` times. -/
def Shows (pool : PoolConfig) (cfg : Stealing.RuntimeConfig) (e : Option (Executor.Event ℕ))
    (s s' : State n External Call) : Prop :=
  ∃ a, Step pool cfg a s s' ∧ a.Meets HelpOnWait.Act.Bounded s ∧
    (∀ i, (s'.threads.runtime.slots i).releases < word) ∧ e = event s s' a

/-- **The stealing modes are an executor of tasks that depend on each other**: what a run shows, whatever its
threads and deques do, an executor may show too. -/
theorem stealing_lawful {s₀ s : State n External Call} {events : List (Executor.Event ℕ)}
    (base : Fin n ⊕ External ↪ Call) (h₀ : Initial base s₀) (h : Trace (Shows pool cfg) s₀ events s) :
    (∃ x, Lifecycle.Matches s.threads.runtime x ∧ Trace Executor.Step Executor.initial events x) ∧
      Executor.Lawful events := by
  have hthreads : Trace (HelpOnWait.Shows pool) (HelpOnWait.initial base) events s.threads := by
    refine h₀.threads ▸ h.map (f := State.threads) ?_
    intro e s s' hshows
    obtain ⟨a, hs, hmeets, hwin, rfl⟩ := hshows
    exact HelpOnWait.shown (threads_step hs) hmeets hwin
  exact HelpOnWait.lawful_threads base hthreads

/-! ### The scheduler holds the ready tasks -/

variable [Fintype External]

theorem agree_step (hheld : Stealing.Held cfg s.scheduler) (hs : Step pool cfg a s s')
    (h : s.threads.runtime.ready = s.scheduler.tasks) : s'.threads.runtime.ready = s'.scheduler.tasks := by
  cases hs with
  | run _ hready => exact hready.trans h
  | work hs hw htakes =>
    refine h.trans (hheld.tasks_alone hs ⟨fun v _ _ hv => ?_, fun _ => nofun, fun v g hv => ?_⟩).symm
    · cases hv
      exact fun hexecuting => absurd hexecuting hw
    · cases hv
      exact htakes g
  | finish hs hw hq | wait hs hw hq =>
    exact h.trans (hheld.tasks_alone hs (.of_executing hw fun _ _ => by rw [hq]; nofun)).symm
  | other hs hwork hsubmit =>
    exact h.trans (hheld.tasks_alone hs ⟨fun v _ _ hv => absurd hv (hwork v), hsubmit,
      fun v _ hv => absurd hv (hwork v)⟩).symm
  | enqueue hw hs hq _ _ hready => rw [hready, Stealing.Held.tasks_enqueue hs hw hq, h]
  | submit hpc hs hq _ _ hready => rw [hready, Stealing.Held.tasks_submit hs hpc hq, h]
  | pop _ hs htakes _ hready | help hs htakes _ hready =>
    rw [hheld.tasks_takes hs htakes, hready] at h
    exact (Multiset.cons_inj_right _).mp h

/-- What is counted is counted in 32 bits, and no handle in use is issued again. -/
abbrev Run (pool : PoolConfig) (cfg : Stealing.RuntimeConfig) (base : Fin (m + 1) ⊕ External ↪ Call)
    (s : State (m + 1) External Call) : Prop :=
  Reachable ((system pool cfg base).restrict (Act.Meets HelpOnWait.Act.Bounded)) s

section Run
variable {base : Fin (m + 1) ⊕ External ↪ Call}

omit [Fintype External] in
theorem held (h : Reachable (system pool cfg base) s) : Stealing.Held cfg s.scheduler :=
  .reachable (scheduler_reachable h)

omit [Fintype External] in
theorem lifecycle (h : Run pool cfg base s) : Lifecycle.Inv pool s.threads.runtime :=
  .reachable (HelpOnWait.sized_of_regular (HelpOnWait.bounded base (threads_reachable h)).2)

omit [Fintype External] in
/-- Every run shows something. -/
theorem shown (h : Run pool cfg base s) (hwin : ∀ i, (s.threads.runtime.slots i).releases < word) :
    ∃ s₀ events, Initial base s₀ ∧ Trace (Shows pool cfg) s₀ events s := by
  refine h.trace (W := fun s => ∀ i, (s.threads.runtime.slots i).releases < word) (fun _ _ _ h hs hwin i => ?_)
    (fun a _ _ hs hwin => ⟨_, a, hs.1, hs.2, hwin, rfl⟩) hwin
  have hinv := (HelpOnWait.bounded base (threads_reachable h)).1
  exact (HelpOnWait.releases_le hinv (threads_step hs.1) hs.2 i).trans_lt (hwin i)

theorem agree (h : Reachable (system pool cfg base) s) : s.threads.runtime.ready = s.scheduler.tasks := by
  apply h.invariant (P := fun s => s.threads.runtime.ready = s.scheduler.tasks)
  · intro s hi
    have hscheduler := hi.scheduler
    rw [hi.threads, Stealing.Held.tasks_eq_zero (.initial hscheduler : Stealing.Held cfg s.scheduler)]
    · rfl
    · rw [hscheduler.global]
      rfl
    · refine fun x => ⟨?_, fun i => ?_⟩
      · rw [AbpDeque.State.logicalBottom, (hscheduler.deques x).owner, (hscheduler.deques x).top]
        exact (hscheduler.deques x).bottom.le
      · rw [(hscheduler.deques x).owner]
        exact id
    · intro t
      rw [hscheduler.global]
      rfl
    · intro w
      rw [hscheduler.work]
      rfl
  · exact fun _ _ _ hreach hagree hs => agree_step (held hreach) hs hagree

/-- **The scheduler holds the ready tasks**, each of them once, in its deques, in the global queue or in the
hands of a thread; and what `acquire_next` takes leaves them. -/
theorem scheduler_holds (h : Run pool cfg base s) :
    HelpOnWait.Ready pool s.threads.runtime s.scheduler.tasks ∧
      ∀ w g q, Stealing.Step cfg (.work w) s.scheduler q → Stealing.Takes s.scheduler q w g →
        s.scheduler.tasks = g ::ₘ q.tasks :=
  ⟨agree h.of_restrict ▸ .of_regular (HelpOnWait.bounded base (threads_reachable h)).2,
    fun _ _ _ hs ht => (held h.of_restrict).tasks_takes hs ht⟩

/-! ### The end -/

omit [Fintype External] in
theorem stop_eq {x y : Stealing.State n External} {b : Stealing.Act n External} (hs : Stealing.Step cfg b x y)
    (hrunning : x.park.running = true) (hstopped : y.park.running = false) : b = .park .stop := by
  have hpark : ∀ {c q}, Parking.Step (Stealing.look x) .global c x.park q → q.running = false → c = .stop := by
    intro c q hs hq
    cases hs with
    | stop | notifyAll => rfl
    | _ => cases hrunning.symm.trans hq
  cases hs with
  | park _ _ hs | queued _ _ _ _ hs | overflowed _ _ hs | submitted _ hs | parking _ _ hs =>
    cases hpark hs hstopped <;> rfl
  | _ => cases hrunning.symm.trans hstopped

section End
variable {base : Fin (m + 1) ⊕ External ↪ Call}
  (h : Reachable ((system pool cfg base).restrict (Act.Ends HelpOnWait.Act.Bounded)) s)
  (hstopped : s.scheduler.park.running = false)
include h hstopped

omit [Fintype External] in
theorem outstanding_of_stopped : s.threads.runtime.outstanding = 0 := by
  refine HelpOnWait.outstanding_of_ended (S := (system pool cfg base).restrict (Act.Ends HelpOnWait.Act.Bounded))
    State.threads (fun s => s.scheduler.park.running) Act.runs (fun _ hi => by rw [hi.scheduler.park]; rfl)
    (fun _ _ _ hs => (threads_step hs.1).imp_left And.left)
    (fun a x y hs hrunning hstopped => ?_) (fun a x y hs hstopped θ deps hruns => ?_)
    (fun _ h => lifecycle (h.restrict_mono fun _ _ hends => hends.meets)) h hstopped
  · obtain heq | ⟨b, hstep, hb⟩ := scheduler_step hs.1
    · rw [heq, hrunning] at hstopped
      cases hstopped
    · have hstop := stop_eq hstep hrunning hstopped
      obtain rfl := hb hstop
      exact ⟨rfl, hs.2.closes.stop (by rw [hstop])⟩
  · cases a <;> cases hruns
    exact hs.2.closes.submit hstopped θ deps rfl

/-- **The destructor discards no task**: where the workers are stopped, every body has been called and has ended,
and no deque, no queue and no hand has a task. -/
theorem nothing_discarded : Lifecycle.Quiet s.threads.runtime ∧ s.scheduler.tasks = 0 := by
  have hquiet := (lifecycle (h.restrict_mono fun _ _ hends => hends.meets)).quiet (outstanding_of_stopped h hstopped)
  exact ⟨hquiet, agree h.of_restrict ▸ hquiet.ready⟩

end End

/-! ### The whole goes on -/

end Run

/-! ### A task, submitted from outside -/

namespace Single
open HelpOnWait.Single Stealing.Single

abbrev Whole (s : State 1 Unit (Fin 1 ⊕ Unit)) : Prop :=
  Reachable ((system singleSlot config calls).restrict (Act.Ends HelpOnWait.Act.ForkJoin)) s

variable {s s' : State 1 Unit (Fin 1 ⊕ Unit)} {a : Act 1 Unit (Fin 1 ⊕ Unit)}

theorem Whole.step (h : Whole s) (hs : Step singleSlot config a s s') (hmeets : a.Meets HelpOnWait.Act.ForkJoin s)
    (hstop : a = .schedule (.park .stop) → s.threads.runtime.outstanding = 0)
    (hrunning : s.scheduler.park.running = true) : Whole s' :=
  Reachable.step h ⟨hs, hmeets, hstop, fun hstopped => by cases hrunning.symm.trans hstopped⟩

theorem Whole.bounded (h : Whole s) :
    Reachable ((system singleSlot config calls).restrict (Act.Ends HelpOnWait.Act.Bounded)) s :=
  h.restrict_mono fun _ _ hends => ⟨fun b hb => (hends.meets b hb).1, hends.closes⟩

theorem initial : Initial calls (⟨HelpOnWait.initial calls, idle⟩ : State 1 Unit (Fin 1 ⊕ Unit)) :=
  ⟨rfl, Stealing.Single.initial⟩

theorem Whole.initial : Whole ⟨HelpOnWait.initial calls, idle⟩ := Reachable.initial Single.initial

variable {threads r : HelpOnWait.State (Fin 1 ⊕ Unit) (Fin 1 ⊕ Unit)} {x y : Stealing.State 1 Unit}

theorem Whole.schedule {b : Stealing.Act 1 Unit} (h : Whole ⟨threads, x⟩)
    (hs : Step singleSlot config (.schedule b) ⟨threads, x⟩ ⟨threads, y⟩) (hstop : b ≠ .park .stop) :
    Whole ⟨threads, y⟩ :=
  Reachable.step h ⟨hs, nofun, fun hb => absurd (Act.schedule.inj hb) hstop, fun _ _ _ => nofun⟩

/-- A worker that hunts takes nothing on the way. -/
theorem Whole.hunts {k : ℕ} (h : Whole ⟨threads, x⟩)
    (hs : Steps (Stealing.solo config Unit 0) (Stealing.Own 0) (Stealing.Hunting 0) x k y) (hy : (y.work 0).hunts = true) :
    Whole ⟨threads, y⟩ := by
  induction hs with
  | none => exact h
  | own _ hhunting hstep hown ih =>
    have hbefore := ih hhunting.2
    obtain rfl | rfl := hown
    · refine hbefore.schedule (.work hstep.1 ?_ fun g htakes => ?_) nofun
      · intro hexecuting
        cases (congrArg Stealing.Work.hunts hexecuting).symm.trans hhunting.2
      · cases (Stealing.Held.hunts_takes hstep.1 htakes).symm.trans hy
    · exact hbefore.schedule (.other hstep.1 nofun nofun) nofun
  | other _ _ hstep hown => exact absurd hstep.2 hown

/-- The task is on its way into the global queue. -/
abbrev pushing : Stealing.State 1 Unit := idle.globalAt (.inr ()) (.pushing task .Normal)

theorem Whole.enqueue (h : Whole ⟨threads, idle⟩) (hoffers : threads.Offers (.inr ()) task)
    (hs : HelpOnWait.Step singleSlot (.step (.inr ())) threads r)
    (hfork : HelpOnWait.Act.ForkJoin (.step (.inr ())) threads)
    (hready : r.runtime.ready = task ::ₘ threads.runtime.ready) : Whole ⟨r, pushing⟩ := by
  have hpushing : pushing.global.pc (.inr ()) = .pushing task .Normal := by
    simp [GlobalQueue.State.pcAt]
  exact h.step (.submit rfl (.submit task .Normal rfl rfl) hpushing hoffers hs hready) (by rintro _ ⟨⟩; exact hfork)
    (by rintro ⟨⟩) rfl

/-- The worker is in the task, and wakes nobody. -/
structure Executes (q : Stealing.State 1 Unit) : Prop where
  work : q.work 0 = .executing
  waker : q.park.waker (.inl 0) = .idle
  running : q.park.running = true

/-- The worker finds its deques empty, and takes the task from the global queue. -/
theorem Whole.take (h : Whole ⟨threads, pushing⟩) (hloops : threads.Loops (.inl 0))
    (hs : HelpOnWait.Step singleSlot (.step (.inl 0)) threads r)
    (hfork : HelpOnWait.Act.ForkJoin (.step (.inl 0)) threads)
    (hready : threads.runtime.ready = task ::ₘ r.runtime.ready) : ∃ q, Whole ⟨r, q⟩ ∧ Executes q := by
  have h := h.schedule (.other (.global (t := .inr ()) (.append rfl rfl)) nofun nofun) nofun
  have h := h.schedule (.other (.global (t := .inr ()) (.count rfl)) nofun nofun) nofun
  have h := h.schedule (.other (a := .submit ()) (.submitted rfl (.wake rfl)) nofun (by rintro _ ⟨⟩ ⟨⟩)) nofun
  have h := h.schedule (.other (.parking (by simp) (by simp) (.nobody (t := .inr ()) rfl rfl)) nofun nofun) nofun
  have h := Whole.hunts h (Stealing.drain_run (by exact ⟨rfl, rfl, fun _ => Int.lt_irrefl 0⟩) rfl rfl (by rfl) (by rfl)) (by rfl)
  have h := h.schedule (.other (.global (t := .inl 0) (.some (Stealing.pc_facing ..) (by exact Nat.one_ne_zero))) nofun nofun) nofun
  have h := h.schedule (.other (.global (t := .inl 0) (.take (h := task) (p := .Normal) rfl rfl rfl)) nofun nofun) nofun
  have h := h.schedule (.other (.global (t := .inl 0) (.uncount rfl)) nofun nofun) nofun
  have h : Whole ⟨r, _⟩ := h.step (.pop hloops (.drained (w := 0) (c := .loop 0) (x := (task, .Normal)) rfl rfl)
    (.drained rfl rfl) hs hready) (by rintro _ ⟨⟩; exact hfork) (by rintro ⟨⟩) rfl
  have h := h.schedule (.work (.pull (w := 0) (i := 1) rfl (by decide)) (by exact nofun)
    fun _ htakes => Bool.false_ne_true htakes.hunts) nofun
  have h := h.schedule (.other (.global (t := .inl 0) (.none (l := false) rfl rfl)) nofun nofun) nofun
  have h := h.schedule (.work (.pullMiss (w := 0) (i := 1) rfl rfl) (by exact nofun)
    fun _ htakes => Bool.false_ne_true htakes.hunts) nofun
  exact ⟨_, h, rfl, rfl, rfl⟩

/-- A task has been submitted, and is on its way into the global queue. -/
theorem queued : ∃ s, Whole s ∧ s.scheduler = pushing ∧ s.scheduler.tasks = {task} ∧
    (s.threads.runtime.sub 0).ended = false := by
  obtain ⟨⟨s, h, hready, hended⟩, _⟩ := offered (P := fun s => Whole ⟨s, idle⟩) (Q := fun s => Whole ⟨s, pushing⟩)
    (R := fun _ => True) Whole.initial
    (fun s a r h hs hfork hthread hready => h.step (.run hs hready (hthread ▸ ⟨rfl, rfl⟩) (by rw [hthread]; rintro _ ⟨⟩))
      (by rintro _ ⟨⟩; exact hfork) (by rintro ⟨⟩) rfl)
    (fun s r h hoffers hs hfork hready => h.enqueue hoffers hs hfork hready) (fun _ _ _ _ _ _ _ => trivial)
  exact ⟨_, h, rfl, agree h.of_restrict ▸ hready, hended⟩

/-- A task has been submitted, executed and retired, and the worker has not come back to its loop. -/
theorem retired : ∃ s, Whole s ∧ s.scheduler.park.running = true ∧ Executed s.threads := by
  obtain ⟨s, ⟨q, h, hq⟩, hexecuted⟩ := executed (P := fun s => Whole ⟨s, idle⟩)
    (Q := fun s => Whole ⟨s, pushing⟩) (R := fun s => ∃ q, Whole ⟨s, q⟩ ∧ Executes q) Whole.initial
    (fun s a r h hs hfork hthread hready => h.step (.run hs hready (hthread ▸ ⟨rfl, rfl⟩) (by rw [hthread]; rintro _ ⟨⟩))
      (by rintro _ ⟨⟩; exact hfork) (by rintro ⟨⟩) rfl)
    (fun s r h hoffers hs hfork hready => h.enqueue hoffers hs hfork hready)
    (fun s r h hloops hs hfork hready => h.take hloops hs hfork hready)
    (fun s r ⟨q, h, hq⟩ hloops hs hfork hready => ⟨q, h.step (.run hs hready ⟨hq.work, hq.waker⟩
      (by rintro w ⟨⟩; exact hloops)) (by rintro _ ⟨⟩; exact hfork) (by rintro ⟨⟩) hq.running, hq⟩)
  exact ⟨_, h, hq.running, hexecuted⟩

end Single

open Single HelpOnWait.Single in
/-- A task goes through the global queue. -/
theorem stealing_lawful_retired : ∃ s₀ events, ∃ s : State 1 Unit (Fin 1 ⊕ Unit), Initial calls s₀ ∧
    Trace (Shows singleSlot Stealing.Single.config) s₀ events s ∧ Executed s.threads ∧ .finish 0 ∈ events ∧
      Executor.Lawful events := by
  obtain ⟨s, h, _, hexecuted⟩ := retired
  have hrun : Run singleSlot _ calls s := h.bounded.restrict_mono fun _ _ hends => hends.meets
  have hsized := HelpOnWait.sized_of_regular (HelpOnWait.bounded calls (threads_reachable hrun)).2
  obtain ⟨s₀, events, h₀, htrace⟩ := shown hrun (hexecuted.window hsized)
  obtain ⟨⟨x, m, hx⟩, hlawful⟩ := stealing_lawful calls h₀ htrace
  refine ⟨s₀, events, s, h₀, htrace, hexecuted, m.finished hx ?_ ?_, hlawful⟩
  · simp [hexecuted.submitted]
  · simp [Submission.status, hexecuted.retired, hexecuted.invoked]

open Single HelpOnWait.Single in
theorem scheduler_holds_submitted : ∃ s : State 1 Unit (Fin 1 ⊕ Unit), Whole s ∧ s.scheduler.tasks = {task} ∧
    s.threads.runtime.Resolves singleSlot task := by
  obtain ⟨s, h, _, htasks, _⟩ := queued
  obtain ⟨hholds, _⟩ := scheduler_holds (h.bounded.restrict_mono fun _ _ hends => hends.meets)
  rw [htasks] at hholds
  exact ⟨s, h, htasks, (hholds.queued _ (Multiset.mem_singleton_self _)).1⟩

open Single HelpOnWait.Single in
/-- The one task has gone through the global queue, and has been executed. -/
theorem nothing_discarded_retired : ∃ s : State 1 Unit (Fin 1 ⊕ Unit), Whole s ∧ s.scheduler.park.running = false ∧
    Executed s.threads ∧ Lifecycle.Quiet s.threads.runtime ∧
      s.scheduler.tasks = 0 := by
  obtain ⟨s, h, hrunning, hexecuted⟩ := retired
  have hstop : Stealing.Step Stealing.Single.config (.park .stop) s.scheduler _ :=
    .parking (by rintro _ ⟨⟩) (by rintro _ ⟨⟩) (.stop hrunning)
  have hstopped := h.step (.other hstop (by rintro _ ⟨⟩) (by rintro _ ⟨⟩)) (by rintro _ ⟨⟩) (fun _ => hexecuted.outstanding) hrunning
  obtain ⟨hquiet, htasks⟩ := nothing_discarded hstopped.bounded rfl
  exact ⟨_, hstopped, rfl, hexecuted, hquiet, htasks⟩

end Thunderbolt.Runtime.StealingRuntime
