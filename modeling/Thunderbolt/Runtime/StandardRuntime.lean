import Mathlib.Data.Fintype.Sum
import Thunderbolt.Runtime.OnScheduler
import Thunderbolt.Runtime.Shown
import Thunderbolt.Scheduler.StandardProofs

/-! `StandardRuntime` as a whole.

The life of a task knows a bag of ready tasks; the queue knows handles, and workers that sleep. Here they are
one system. A thread with a task to enqueue calls `enqueue_ready`, and the task is ready once it is in the
queue; a worker has a task once `pop_locked` has returned it, to its loop or to a wait that helps. Otherwise
either side goes on by itself. What a worker does it does in a task; the other threads make calls of their own,
and take no tasks. The destructor waits for `outstanding_` to be zero and stops the workers; nobody submits
then (`Act.Closes`). -/
namespace Thunderbolt.Runtime.StandardRuntime
open Concurrent Lifecycle Executor Scheduler

structure State (Worker External Call : Type) where
  threads : HelpOnWait.State (Worker ⊕ External) Call
  queue : Standard.State Worker (Worker ⊕ External)

inductive Act (Worker External Call : Type) where
  /-- Outside the code of the queue. -/
  | run (a : HelpOnWait.Act (Worker ⊕ External) Call)
  /-- In `worker_loop`. -/
  | loop (w : Worker)
  /-- The waiter wakes by itself. -/
  | wake (w : Worker)
  /-- In `enqueue_ready` or `try_pop`. -/
  | call (θ : Worker ⊕ External)
  | notify (θ : Worker ⊕ External) (woken : Option Worker)
  /-- The critical section of `enqueue_ready`. -/
  | push (θ : Worker ⊕ External)
  /-- `worker_loop` has a task. -/
  | pop (w : Worker)
  /-- `try_execute_one` has. -/
  | help (w : Worker) (c : Call)
  /-- The destructor, when its `wait_all` has returned. -/
  | stop
  | notify_all

variable {Worker External Call : Type}

variable [DecidableEq Worker] [DecidableEq External] [DecidableEq Call]

inductive Step (cfg : PoolConfig) :
    Act Worker External Call → State Worker External Call → State Worker External Call → Prop where
  | run {s a r} : HelpOnWait.Step cfg a s.threads r → r.runtime.ready = s.threads.runtime.ready →
      s.queue.call a.thread = .idle → (∀ w, a.thread = .inl w → ¬s.threads.Loops (.inl w)) →
      Step cfg (.run a) s {s with threads := r}
  | loop {s w q} : Standard.Step (.work w) s.queue q → q.ready = s.queue.ready → s.threads.Loops (.inl w) →
      Step cfg (.loop w) s {s with queue := q}
  | wake {s w q} : Standard.Step (.wake w) s.queue q → Step cfg (.wake w) s {s with queue := q}
  | enqueue_ready {s θ h p q} : Standard.Step (.call θ) s.queue q → q.call θ = .pushing h p → s.threads.Offers θ h →
      Step cfg (.call θ) s {s with queue := q}
  | notify {s θ woken q} : Standard.Step (.notify θ woken) s.queue q →
      Step cfg (.notify θ woken) s {s with queue := q}
  | try_pop {s w q} : Standard.Step (.call (.inl w)) s.queue q → q.call (.inl w) = .popping → s.threads.Waits (.inl w) →
      Step cfg (.call (.inl w)) s {s with queue := q}
  | popMiss {s θ q} : s.queue.call θ = .popping → Standard.Step (.call θ) s.queue q →
      q.ready = s.queue.ready → Step cfg (.call θ) s {s with queue := q}
  | push {s θ h p q r} : s.queue.call θ = .pushing h p → Standard.Step (.call θ) s.queue q → s.threads.Offers θ h →
      HelpOnWait.Step cfg (.step θ) s.threads r → r.runtime.ready = h ::ₘ s.threads.runtime.ready →
      Step cfg (.push θ) s ⟨r, q⟩
  | pop {s w h q r} : s.threads.Loops (.inl w) → s.queue.work w = .deciding → Standard.Step (.work w) s.queue q →
      q.work w = .executing h → HelpOnWait.Step cfg (.step (.inl w)) s.threads r →
      s.threads.runtime.ready = h ::ₘ r.runtime.ready → Step cfg (.pop w) s ⟨r, q⟩
  | help {s w c h p q r} : s.queue.call (.inl w) = .popping → Standard.Step (.call (.inl w)) s.queue q →
      q.popped p = s.queue.popped p ++ [h] → HelpOnWait.Step cfg (.help (.inl w) c) s.threads r →
      s.threads.runtime.ready = h ::ₘ r.runtime.ready → Step cfg (.help w c) s ⟨r, q⟩
  | stop {s q} : Standard.Step .stop s.queue q → Step cfg .stop s {s with queue := q}
  | notify_all {s q} : Standard.Step .notify_all s.queue q → Step cfg .notify_all s {s with queue := q}

def initial (base : Worker ⊕ External → Call) : State Worker External Call where
  threads := HelpOnWait.initial base
  queue := Standard.initial

def system (cfg : PoolConfig) (base : Worker ⊕ External → Call) :
    System (State Worker External Call) (Act Worker External Call) :=
  ⟨fun s => s = initial base, Step cfg⟩

omit [DecidableEq Worker] [DecidableEq External] [DecidableEq Call] in
/-- What the threads do in it. -/
def Act.runs : Act Worker External Call → Option (HelpOnWait.Act (Worker ⊕ External) Call)
  | run a => some a
  | push θ => some (.step θ)
  | pop w => some (.step (.inl w))
  | help w c => some (.help (.inl w) c)
  | _ => none

/-- What the threads do is as `C` says. -/
def Act.Meets (C : HelpOnWait.Act (Worker ⊕ External) Call → HelpOnWait.State (Worker ⊕ External) Call → Prop)
    (a : Act Worker External Call) (s : State Worker External Call) : Prop :=
  ∀ b, a.runs = some b → C b s.threads

/-- The destructor stops the workers where nothing is outstanding, and no thread submits any more. -/
structure Act.Closes (a : Act Worker External Call) (s : State Worker External Call) : Prop where
  stop : a = .stop → s.threads.runtime.outstanding = 0
  submit : s.queue.running = false → ∀ θ deps, a ≠ .run (.submit θ deps)

/-- As `C` says, and with the destructor at the end. -/
structure Act.Ends (C : HelpOnWait.Act (Worker ⊕ External) Call → HelpOnWait.State (Worker ⊕ External) Call → Prop)
    (a : Act Worker External Call) (s : State Worker External Call) : Prop where
  meets : a.Meets C s
  closes : a.Closes s

/-- A task has not ended, every thread waits, and each worker sleeps, or is in a task and finds nothing. -/
structure Stuck (cfg : PoolConfig) (s : State Worker External Call) : Prop where
  unfinished : ∃ t < s.threads.runtime.submitted,
    (s.threads.runtime.sub t).ended = false ∧ (s.threads.runtime.sub t).threw = false
  blocked : ∀ θ, HelpOnWait.Blocked cfg s.threads (s.threads.stack θ)
  calls : ∀ θ, s.queue.call θ = .idle ∨ s.queue.call θ = .popping
  workers : ∀ w, s.queue.work w = .blocked ∨ (∃ x, s.queue.work w = .executing x) ∧ s.queue.ready = .empty

variable {cfg : PoolConfig} {a : Act Worker External Call} {s s' : State Worker External Call} {w : Worker}
  {θ : Worker ⊕ External}

/-! ### The two sides -/

theorem threads_step (hs : Step cfg a s s') :
    s'.threads = s.threads ∧ a.runs = none ∨ ∃ b, a.runs = some b ∧ HelpOnWait.Step cfg b s.threads s'.threads := by
  cases hs with
  | run hs | push _ _ _ hs | pop _ _ _ _ hs | help _ _ _ hs => exact .inr ⟨_, rfl, hs⟩
  | _ => exact .inl ⟨rfl, rfl⟩

/-- Each side sees a run of its own. -/
theorem threads_reachable {base : Worker ⊕ External → Call}
    {C : HelpOnWait.Act (Worker ⊕ External) Call → HelpOnWait.State (Worker ⊕ External) Call → Prop}
    (h : Reachable ((system cfg base).restrict (Act.Meets C)) s) :
    Reachable ((HelpOnWait.system cfg base).restrict C) s.threads := by
  refine h.map State.threads (fun _ hi => congrArg State.threads hi) fun a s s' hs => ?_
  exact (threads_step hs.1).imp And.left fun ⟨b, hb, hstep⟩ => ⟨b, hstep, hs.2 b hb⟩

theorem queue_step (hs : Step cfg a s s') :
    s'.queue = s.queue ∨ ∃ b, Standard.Step b s.queue s'.queue ∧ (b = .stop → a = .stop) := by
  cases hs with
  | run => exact .inl rfl
  | loop hs | wake hs | enqueue_ready hs | notify hs | try_pop hs | popMiss _ hs | push _ hs | pop _ _ hs
  | help _ hs | notify_all hs => exact .inr ⟨_, hs, nofun⟩
  | stop hs => exact .inr ⟨_, hs, fun _ => rfl⟩

theorem queue_reachable {base : Worker ⊕ External → Call} (h : Reachable (system cfg base) s) :
    Reachable (Standard.system Worker (Worker ⊕ External)) s.queue := by
  refine h.map State.queue (fun _ hi => congrArg State.queue hi) fun a s s' hs => ?_
  exact (queue_step hs).imp_right fun ⟨b, hstep, _⟩ => ⟨b, hstep⟩

/-! ### What the whole shows -/

omit [DecidableEq Worker] [DecidableEq External] [DecidableEq Call] in
def event (s s' : State Worker External Call) (a : Act Worker External Call) : Option (Executor.Event ℕ) :=
  a.runs.bind (HelpOnWait.event s.threads s'.threads)

/-- A step, when no slot has been released `2^32` times. -/
def Shows (cfg : PoolConfig) (e : Option (Executor.Event ℕ)) (s s' : State Worker External Call) : Prop :=
  ∃ a, Step cfg a s s' ∧ a.Meets HelpOnWait.Act.Bounded s ∧
    (∀ i, (s'.threads.runtime.slots i).releases < word) ∧ e = event s s' a

/-- **`StandardRuntime` is an executor of tasks that depend on each other**: what a run shows, whatever its
threads and its queue do, an executor may show too. -/
theorem standard_lawful {events : List (Executor.Event ℕ)} (base : Worker ⊕ External ↪ Call)
    (h : Trace (Shows cfg) (initial base) events s) :
    (∃ x, Lifecycle.Matches s.threads.runtime x ∧ Trace Executor.Step Executor.initial events x) ∧
      Executor.Lawful events := by
  have hthreads : Trace (HelpOnWait.Shows cfg) (HelpOnWait.initial base) events s.threads := by
    refine h.map (f := State.threads) ?_
    intro e s s' hshows
    obtain ⟨a, hs, hmeets, hwin, rfl⟩ := hshows
    exact HelpOnWait.shown (threads_step hs) hmeets hwin
  exact HelpOnWait.lawful_threads base hthreads

/-! ### The queue holds the ready tasks -/

theorem content_pop {n : ℕ} {q q' : ReadyQueues} {h : TaskHandle} {p : TaskPriority}
    (hpop : Standard.pop_locked n q = some (h, p, q')) : q.content = h ::ₘ q'.content := by
  unfold Standard.pop_locked at hpop
  split at hpop
  · cases hpop
  · exact ReadyQueues.content_pop hpop

section Queue
variable {x y : Standard.State Worker (Worker ⊕ External)} {h : TaskHandle} {p : TaskPriority}

theorem pushed (hs : Standard.Step (.call θ) x y) (hcall : x.call θ = .pushing h p) :
    y.ready.content = h ::ₘ x.ready.content := by
  cases hs with
  | push hpc => cases hcall.symm.trans hpc; exact ReadyQueues.content_push ..
  | enqueue_ready _ _ hpc | try_pop hpc | popped hpc | popMiss hpc => cases hcall.symm.trans hpc

theorem popped (hs : Standard.Step (.work w) x y) (hwork : x.work w = .deciding) (hy : y.work w = .executing h) :
    x.ready.content = h ::ₘ y.ready.content := by
  cases hs with
  | pop _ _ hpop =>
    obtain rfl := Standard.Work.executing.inj ((Function.update_self ..).symm.trans hy)
    exact content_pop hpop
  | empty | miss => cases (Function.update_self ..).symm.trans hy
  | go hw | stopped hw | lock hw | queued hw | unqueued hw | wait hw | shutdown hw | block hw | relock hw | leave hw
  | again hw | finish hw => cases hwork.symm.trans hw

theorem helped (hs : Standard.Step (.call θ) x y) (hcall : x.call θ = .popping)
    (hy : y.popped p = x.popped p ++ [h]) : x.ready.content = h ::ₘ y.ready.content := by
  cases hs with
  | @popped _ _ g r _ _ _ hpop =>
    have hy : Function.update x.popped r (x.popped r ++ [g]) p = x.popped p ++ [h] := hy
    rcases eq_or_ne p r with rfl | hne
    · rw [Function.update_self, List.append_cancel_left_eq, List.singleton_inj] at hy
      exact hy ▸ content_pop hpop
    · simp [hne] at hy
  | popMiss => simp [Standard.State.callAt] at hy
  | enqueue_ready _ _ hpc | try_pop hpc | push hpc => cases hcall.symm.trans hpc

end Queue

theorem agree_step (hs : Step cfg a s s') (h : s.threads.runtime.ready = s.queue.ready.content) :
    s'.threads.runtime.ready = s'.queue.ready.content := by
  cases hs with
  | run _ hready => exact hready.trans h
  | loop _ hready | popMiss _ _ hready => exact h.trans (congrArg _ hready.symm)
  | wake hs | stop hs | notify_all hs => cases hs; exact h
  | notify hs => cases hs <;> exact h
  | enqueue_ready hs hpushing =>
    cases hs with
    | enqueue_ready => exact h
    | push | try_pop | popped | popMiss => cases (Function.update_self ..).symm.trans hpushing
  | try_pop hs hpopping =>
    cases hs with
    | try_pop => exact h
    | enqueue_ready | push | popped | popMiss => cases (Function.update_self ..).symm.trans hpopping
  | push hcall hs _ _ hready => rw [hready, pushed hs hcall, h]
  | pop _ hwork hs hy _ hready =>
    rw [popped hs hwork hy, hready] at h
    exact (Multiset.cons_inj_right _).mp h
  | help hcall hs hy _ hready =>
    rw [helped hs hcall hy, hready] at h
    exact (Multiset.cons_inj_right _).mp h

theorem agree {base : Worker ⊕ External → Call} (h : Reachable (system cfg base) s) :
    s.threads.runtime.ready = s.queue.ready.content := by
  apply h.invariant (P := fun s => s.threads.runtime.ready = s.queue.ready.content)
  · intro _ hi
    obtain rfl := hi
    rfl
  · exact fun _ _ _ _ hagree hs => agree_step hs hagree

/-- What is counted is counted in 32 bits, and no handle in use is issued again. -/
abbrev Run (cfg : PoolConfig) (base : Worker ⊕ External ↪ Call) (s : State Worker External Call) : Prop :=
  Reachable ((system cfg base).restrict (Act.Meets HelpOnWait.Act.Bounded)) s

section Run
variable {base : Worker ⊕ External ↪ Call}

theorem threads_inv (h : Run cfg base s) :
    HelpOnWait.Inv s.threads ∧ Reachable (regular Call cfg) s.threads.runtime :=
  HelpOnWait.bounded base (threads_reachable h)

theorem lifecycle (h : Run cfg base s) : Lifecycle.Inv cfg s.threads.runtime :=
  .reachable (HelpOnWait.sized_of_regular (threads_inv h).2)

/-- Every run shows something. -/
theorem shown (h : Run cfg base s) (hwin : ∀ i, (s.threads.runtime.slots i).releases < word) :
    ∃ events, Trace (Shows cfg) (initial base) events s := by
  have htrace : ∃ s₀ events, s₀ = initial base ∧ Trace (Shows cfg) s₀ events s := by
    refine h.trace (W := fun s => ∀ i, (s.threads.runtime.slots i).releases < word) (fun _ _ _ h hs hwin i => ?_)
      (fun a _ _ hs hwin => ⟨_, a, hs.1, hs.2, hwin, rfl⟩) hwin
    exact (HelpOnWait.releases_le (threads_inv h).1 (threads_step hs.1) hs.2 i).trans_lt (hwin i)
  obtain ⟨_, events, rfl, htrace⟩ := htrace
  exact ⟨events, htrace⟩

theorem total_le (h : Run cfg base s) : s.queue.ready.total ≤ cfg.capacity := by
  have hcard := HelpOnWait.card_ready (lifecycle h)
  rwa [agree h.of_restrict] at hcard

theorem queue (h : Run cfg base s) : Standard.Queue s.queue := by
  induction h with
  | initial hs =>
    subst hs
    exact ⟨rfl, by show 0 < word; decide, nofun, fun _ => rfl⟩
  | step h hs ih =>
    obtain heq | ⟨b, hstep, _⟩ := queue_step hs.1
    · exact heq ▸ ih
    · refine Standard.queue_step (Standard.exclusive (queue_reachable h.of_restrict)) ih hstep ?_
      exact (total_le (h.step hs)).trans_lt (cfg.fits.trans_lt (by decide))

/-- **The queue holds the ready tasks**, and `queued_count_` counts them. -/
theorem queue_holds (h : Run cfg base s) :
    s.queue.queued_count = s.queue.ready.content.card ∧
      HelpOnWait.Ready cfg s.threads.runtime s.queue.ready.content :=
  ⟨(queue h).count, agree h.of_restrict ▸ .of_regular (threads_inv h).2⟩

/-! ### The whole goes on -/

theorem stop_eq {x y : Standard.State Worker (Worker ⊕ External)} {b : Standard.Act Worker (Worker ⊕ External)}
    (hs : Standard.Step b x y) (hrunning : x.running = true) (hstopped : y.running = false) : b = .stop := by
  cases hs with
  | stop => rfl
  | _ => cases hrunning.symm.trans hstopped

theorem outstanding_of_stopped (h : Reachable ((system cfg base).restrict (Act.Ends HelpOnWait.Act.Bounded)) s)
    (hstopped : s.queue.running = false) : s.threads.runtime.outstanding = 0 := by
  refine HelpOnWait.outstanding_of_ended (S := (system cfg base).restrict (Act.Ends HelpOnWait.Act.Bounded))
    State.threads (fun s => s.queue.running) Act.runs (fun _ hi => by rw [hi]; rfl)
    (fun _ _ _ hs => (threads_step hs.1).imp_left And.left)
    (fun a x y hs hrunning hstopped => ?_) (fun a x y hs hstopped θ deps hruns => ?_)
    (fun _ h => lifecycle (h.restrict_mono fun _ _ hends => hends.meets)) h hstopped
  · obtain heq | ⟨b, hstep, hb⟩ := queue_step hs.1
    · cases hrunning.symm.trans ((congrArg _ heq).symm.trans hstopped)
    · obtain rfl := hb (stop_eq hstep hrunning hstopped)
      exact ⟨rfl, hs.2.closes.stop rfl⟩
  · cases a <;> cases hruns
    exact hs.2.closes.submit hstopped θ deps rfl

/-- **The destructor drops no task**: where the workers are stopped, every body has been called and has ended,
and the queue is empty. -/
theorem nothing_dropped (h : Reachable ((system cfg base).restrict (Act.Ends HelpOnWait.Act.Bounded)) s)
    (hstopped : s.queue.running = false) :
    Lifecycle.Quiet s.threads.runtime ∧ s.queue.ready.content = 0 := by
  have hquiet := (lifecycle (h.restrict_mono fun _ _ hends => hends.meets)).quiet (outstanding_of_stopped h hstopped)
  exact ⟨hquiet, agree h.of_restrict ▸ hquiet.ready⟩

variable [Fintype Worker] [Fintype External]

theorem served (h : Run cfg base s) : Standard.Served s.queue := by
  induction h with
  | initial hs =>
    subst hs
    exact .of_empty rfl
  | step h hs ih =>
    obtain heq | ⟨b, hstep, _⟩ := queue_step hs.1
    · exact heq ▸ ih
    · exact Standard.served_step (queue h) ih hstep

end Run

/-! ### A task, and a worker that sleeps -/

namespace Single
open HelpOnWait.Single

abbrev Whole (s : State (Fin 1) Unit (Fin 1 ⊕ Unit)) : Prop :=
  Reachable ((system singleSlot calls).restrict (Act.Ends HelpOnWait.Act.ForkJoin)) s

variable {s s' : State (Fin 1) Unit (Fin 1 ⊕ Unit)} {a : Act (Fin 1) Unit (Fin 1 ⊕ Unit)}

theorem Whole.step (h : Whole s) (hs : Step singleSlot a s s') (hmeets : a.Meets HelpOnWait.Act.ForkJoin s)
    (hstop : a = .stop → s.threads.runtime.outstanding = 0) (hrunning : s.queue.running = true) : Whole s' :=
  Reachable.step h ⟨hs, hmeets, hstop, fun hstopped => by cases hrunning.symm.trans hstopped⟩

theorem Whole.loop {q : Standard.State (Fin 1) (Fin 1 ⊕ Unit)} (h : Whole s)
    (hs : Standard.Step (.work 0) s.queue q) (hready : q.ready = s.queue.ready) (hloops : s.threads.Loops (.inl 0))
    (hrunning : s.queue.running = true) : Whole {s with queue := q} :=
  h.step (.loop hs hready hloops) (by rintro _ ⟨⟩) (by rintro ⟨⟩) hrunning

/-- The worker and the thread outside are here, and this is queued. -/
structure Queue (q : Standard.State (Fin 1) (Fin 1 ⊕ Unit)) (work : Standard.Work) (call : Standard.Call)
    (mutex : Option (Fin 1)) (queued : List TaskHandle) : Prop where
  work : q.work 0 = work
  call : q.call (.inr ()) = call
  idle : q.call (.inl 0) = .idle
  mutex : q.mutex = mutex
  running : q.running = true
  count : q.queued_count = queued.length
  ready : q.ready = Function.update ReadyQueues.empty .Normal queued

/-- The worker finds nothing, and sleeps. -/
theorem asleep : ∃ q, Whole ⟨HelpOnWait.initial calls, q⟩ ∧ Queue q .blocked .idle none [] := by
  have hloops : (HelpOnWait.initial (calls : Fin 1 ⊕ Unit ↪ Fin 1 ⊕ Unit)).Loops (.inl 0) := ⟨⟨.inl 0, none⟩, rfl, rfl⟩
  have h0 : Whole (initial calls) := .initial rfl
  have h1 := h0.loop (.go rfl rfl) rfl hloops rfl
  have h2 := h1.loop (.lock rfl rfl) rfl hloops rfl
  have h3 := h2.loop (.unqueued rfl rfl) rfl hloops rfl
  have h4 := h3.loop (.wait rfl rfl) rfl hloops rfl
  have h5 := h4.loop (.block rfl) rfl hloops rfl
  exact ⟨_, h5, rfl, rfl, rfl, rfl, rfl, rfl, (Function.update_eq_self _ _).symm⟩

variable {q : Standard.State (Fin 1) (Fin 1 ⊕ Unit)} {threads r : HelpOnWait.State (Fin 1 ⊕ Unit) (Fin 1 ⊕ Unit)}

/-- The thread outside puts the task into the queue. -/
theorem Queue.enqueue (hq : Queue q .blocked .idle none []) (h : Whole ⟨threads, q⟩) (hoffers : threads.Offers (.inr ()) task)
    (hs : HelpOnWait.Step singleSlot (.step (.inr ())) threads r) (hfork : HelpOnWait.Act.ForkJoin (.step (.inr ())) threads)
    (hready : r.runtime.ready = task ::ₘ threads.runtime.ready) :
    ∃ q, Whole ⟨r, q⟩ ∧ Queue q .blocked .notifying none [task] := by
  have hcalls : Standard.Step (.call (.inr ())) q _ := .enqueue_ready task .Normal hq.call
  have hcalling : (q.callAt (.inr ()) (.pushing task .Normal)).call (.inr ()) = .pushing task .Normal := by
    simp [Standard.State.callAt]
  have h1 : Whole _ := h.step (.enqueue_ready hcalls hcalling hoffers) (by rintro _ ⟨⟩) (by rintro ⟨⟩) hq.running
  have h2 : Whole _ := h1.step (.push hcalling (.push hcalling hq.mutex) hoffers hs hready)
    (by rintro _ ⟨⟩; exact hfork) (by rintro ⟨⟩) hq.running
  refine ⟨_, h2, hq.work, ?_, hq.idle, hq.mutex, hq.running, ?_, ?_⟩
  · simp [Standard.State.callAt]
  · simp [Standard.State.callAt, Standard.State.push, hq.count]
    decide
  · simp [Standard.State.callAt, Standard.State.push, hq.ready, ReadyQueues.push]

/-- The worker is notified, and looks. -/
theorem Queue.wake (hq : Queue q .blocked .notifying none [task]) (h : Whole ⟨threads, q⟩)
    (hloops : threads.Loops (.inl 0)) : ∃ q, Whole ⟨threads, q⟩ ∧ Queue q .deciding .idle (some 0) [task] := by
  have h1 : Whole _ := h.step (.notify (.notify_one hq.call hq.work)) (by rintro _ ⟨⟩) (by rintro ⟨⟩) hq.running
  have h2 := h1.loop (.relock (by rfl) hq.mutex) rfl hloops hq.running
  have hcount : q.queued_count ≠ 0 := by
    rw [hq.count]
    exact Nat.one_ne_zero
  have h3 := h2.loop (.queued (by rfl) hcount) rfl hloops hq.running
  exact ⟨_, h3, rfl, rfl, hq.idle, rfl, hq.running, hq.count, hq.ready⟩

/-- It takes the task. -/
theorem Queue.take (hq : Queue q .deciding .idle (some 0) [task]) (h : Whole ⟨threads, q⟩) (hloops : threads.Loops (.inl 0))
    (hs : HelpOnWait.Step singleSlot (.step (.inl 0)) threads r) (hfork : HelpOnWait.Act.ForkJoin (.step (.inl 0)) threads)
    (hready : threads.runtime.ready = task ::ₘ r.runtime.ready) :
    ∃ q, Whole ⟨r, q⟩ ∧ Queue q (.executing task) .idle none [] := by
  have hcount : q.queued_count ≠ 0 := by
    rw [hq.count]
    exact Nat.one_ne_zero
  have htask : Standard.pop_locked q.queued_count q.ready =
      some (task, .Normal, Function.update (Function.update ReadyQueues.empty .Normal [task]) .Normal []) := by
    rw [hq.count, hq.ready]
    rfl
  have hpop : Standard.Step (.work 0) q _ := .pop hq.work hcount htask
  have h1 : Whole _ := h.step (.pop hloops hq.work hpop (by rfl) hs hready) (by rintro _ ⟨⟩; exact hfork)
    (by rintro ⟨⟩) hq.running
  refine ⟨_, h1, rfl, hq.call, hq.idle, rfl, hq.running, ?_, Function.update_idem ..⟩
  show (q.queued_count + word - 1) % word = 0
  rw [hq.count]
  rfl

/-- The worker goes on with the task. -/
theorem Queue.execute (hq : Queue q (.executing task) .idle none []) (h : Whole ⟨threads, q⟩) (hloops : ¬threads.Loops (.inl 0))
    (hs : HelpOnWait.Step singleSlot (.step (.inl 0)) threads r) (hfork : HelpOnWait.Act.ForkJoin (.step (.inl 0)) threads)
    (hready : r.runtime.ready = threads.runtime.ready) : Whole ⟨r, q⟩ :=
  h.step (.run hs hready hq.idle (by rintro w ⟨⟩; exact hloops)) (by rintro _ ⟨⟩; exact hfork) (by rintro ⟨⟩) hq.running

theorem Whole.bounded (h : Whole s) :
    Reachable ((system singleSlot calls).restrict (Act.Ends HelpOnWait.Act.Bounded)) s :=
  h.restrict_mono fun _ _ hends => ⟨fun b hb => (hends.meets b hb).1, hends.closes⟩

/-- A task has been submitted, and is in the queue. -/
theorem queued : ∃ s, Whole s ∧ s.queue.work 0 = .blocked ∧ s.threads.runtime.ready = {task} ∧
    (s.threads.runtime.sub 0).ended = false := by
  obtain ⟨q, h0, hq⟩ := asleep
  obtain ⟨⟨s, ⟨q, h, hq⟩, hready, hended⟩, _⟩ := offered (P := fun s => Whole ⟨s, q⟩)
    (Q := fun s => ∃ q, Whole ⟨s, q⟩ ∧ Queue q .blocked .notifying none [task]) (R := fun _ => True) h0
    (fun s a r h hs hfork hthread hready => h.step (.run hs hready (hthread ▸ hq.call) (by rw [hthread]; rintro _ ⟨⟩))
      (by rintro _ ⟨⟩; exact hfork) (by rintro ⟨⟩) hq.running)
    (fun s r h hoffers hs hfork hready => hq.enqueue h hoffers hs hfork hready) (fun _ _ _ _ _ _ _ => trivial)
  exact ⟨_, h, hq.work, hready, hended⟩

/-- A task has been submitted, executed and retired, and the worker has not come back to its loop. -/
theorem retired : ∃ s, Whole s ∧ s.queue.running = true ∧ Executed s.threads := by
  obtain ⟨q, h0, hq⟩ := asleep
  obtain ⟨s, ⟨q, h, hq⟩, hexecuted⟩ := executed (P := fun s => Whole ⟨s, q⟩)
    (Q := fun s => ∃ q, Whole ⟨s, q⟩ ∧ Queue q .blocked .notifying none [task])
    (R := fun s => ∃ q, Whole ⟨s, q⟩ ∧ Queue q (.executing task) .idle none []) h0
    (fun s a r h hs hfork hthread hready => h.step (.run hs hready (hthread ▸ hq.call) (by rw [hthread]; rintro _ ⟨⟩))
      (by rintro _ ⟨⟩; exact hfork) (by rintro ⟨⟩) hq.running)
    (fun s r h hoffers hs hfork hready => hq.enqueue h hoffers hs hfork hready)
    (fun s r ⟨q, h, hq⟩ hloops hs hfork hready => by
      obtain ⟨q, h, hq⟩ := hq.wake h hloops
      exact hq.take h hloops hs hfork hready)
    (fun s r ⟨q, h, hq⟩ hloops hs hfork hready => ⟨q, hq.execute h hloops hs hfork hready, hq⟩)
  exact ⟨_, h, hq.running, hexecuted⟩

end Single

open Single HelpOnWait.Single in
/-- A task goes through the queue. -/
theorem standard_lawful_retired : ∃ events, ∃ s : State (Fin 1) Unit (Fin 1 ⊕ Unit),
    Trace (Shows singleSlot) (initial calls) events s ∧ Executed s.threads ∧ .finish 0 ∈ events ∧
      Executor.Lawful events := by
  obtain ⟨s, h, _, hexecuted⟩ := retired
  have hrun : Run singleSlot calls s := h.bounded.restrict_mono fun _ _ hends => hends.meets
  obtain ⟨events, htrace⟩ := shown hrun (hexecuted.window (HelpOnWait.sized_of_regular (threads_inv hrun).2))
  obtain ⟨⟨x, m, hx⟩, hlawful⟩ := standard_lawful calls htrace
  refine ⟨events, s, htrace, hexecuted, m.finished hx ?_ ?_, hlawful⟩
  · simp [hexecuted.submitted]
  · simp [Submission.status, hexecuted.retired, hexecuted.invoked]

open Single HelpOnWait.Single in
theorem queue_holds_asleep : ∃ s : State (Fin 1) Unit (Fin 1 ⊕ Unit), Whole s ∧ s.queue.queued_count = 1 ∧
    s.threads.runtime.Resolves singleSlot task := by
  obtain ⟨s, h, _, hready, _⟩ := queued
  have hagree := agree h.of_restrict
  obtain ⟨hcount, hholds⟩ := queue_holds (h.bounded.restrict_mono fun _ _ hends => hends.meets)
  rw [← hagree, hready] at hcount hholds
  exact ⟨s, h, hcount, (hholds.queued _ (Multiset.mem_singleton_self _)).1⟩

open Single HelpOnWait.Single in
/-- The one task has been executed. -/
theorem nothing_dropped_retired : ∃ s : State (Fin 1) Unit (Fin 1 ⊕ Unit), Whole s ∧ s.queue.running = false ∧
    Executed s.threads ∧ Lifecycle.Quiet s.threads.runtime ∧
      s.queue.ready.content = 0 := by
  obtain ⟨s, h, hrunning, hexecuted⟩ := retired
  have hstopped := h.step (.stop (.stop hrunning)) (by rintro _ ⟨⟩) (fun _ => hexecuted.outstanding) hrunning
  obtain ⟨hquiet, hempty⟩ := nothing_dropped hstopped.bounded rfl
  exact ⟨_, hstopped, rfl, hexecuted, hquiet, hempty⟩

end Thunderbolt.Runtime.StandardRuntime
