import Thunderbolt.Concurrent.System
import Thunderbolt.Concurrent.Threads
import Thunderbolt.Executor.ReadyQueues

/-! `StandardRuntime`.

One list of queues under a mutex, and a condition variable on which idle workers wait. What a thread does
between a lock and the unlock is one step, but for the worker loop, which reads `running_` in between:
the destructor stores to it without the lock. Waiters may wake by themselves. A body's own calls,
and the tasks its waits help with, are made by further callers. -/
namespace Thunderbolt.Scheduler.Standard
open Concurrent Executor

/-- Where a worker stands in `worker_loop`. -/
inductive Work where
  /-- About to read `running_`. -/
  | testing
  /-- About to lock `queue_mutex_`. -/
  | locking
  /-- The predicate of the wait: about to read `queued_count_`. -/
  | counting
  /-- Nothing is queued: about to read `running_`. -/
  | asking
  /-- The predicate is false: about to unlock and block. -/
  | blocking
  | blocked
  /-- Notified, or woken by itself: about to lock again. -/
  | woken
  /-- The predicate is true. -/
  | deciding
  /-- `queued_count_ == 0`: about to read `running_`. -/
  | leaving
  | executing (h : TaskHandle)
  | returned

/-- Where a caller stands in `enqueue_ready` or `try_pop`. -/
inductive Call where
  | idle
  /-- About to lock `queue_mutex_`, push and unlock. -/
  | pushing (h : TaskHandle) (p : TaskPriority)
  /-- About to notify one. -/
  | notifying
  /-- About to lock `queue_mutex_`, pop and unlock. -/
  | popping

structure State (Worker Caller : Type*) where
  ready : ReadyQueues
  queued_count : ℕ
  /-- The holder of `queue_mutex_`. -/
  mutex : Option Worker
  /-- `running_`. -/
  running : Bool
  work : Worker → Work
  call : Caller → Call
  /-- What has been pushed so far, a priority. -/
  pushed : TaskPriority → List TaskHandle
  /-- What has been popped so far, a priority. -/
  popped : TaskPriority → List TaskHandle

inductive Act (Worker Caller : Type*) where
  | work (w : Worker)
  /-- The waiter wakes by itself. -/
  | wake (w : Worker)
  | call (c : Caller)
  | notify (c : Caller) (woken : Option Worker)
  /-- The destructor stores `false` to `running_`. -/
  | stop
  /-- It locks, notifies all and unlocks. -/
  | notify_all

/-- `pop_locked`. -/
def pop_locked (queued_count : ℕ) (ready : ReadyQueues) : Option (TaskHandle × TaskPriority × ReadyQueues) :=
  if queued_count = 0 then none else ready.pop false

variable {Worker Caller : Type*} [DecidableEq Worker] [DecidableEq Caller]

namespace State

def workAt (s : State Worker Caller) (w : Worker) (p : Work) : State Worker Caller :=
  {s with work := Function.update s.work w p}

def callAt (s : State Worker Caller) (c : Caller) (p : Call) : State Worker Caller :=
  {s with call := Function.update s.call c p}

/-- The critical section of `enqueue_ready`. -/
def push (s : State Worker Caller) (h : TaskHandle) (p : TaskPriority) : State Worker Caller :=
  {s with
    ready := s.ready.push h p, queued_count := (s.queued_count + 1) % word
    pushed := Function.update s.pushed p (s.pushed p ++ [h])}

/-- `pop_locked` has returned `h`. -/
def pop (s : State Worker Caller) (h : TaskHandle) (p : TaskPriority) (ready : ReadyQueues) :
    State Worker Caller :=
  {s with
    ready := ready, queued_count := (s.queued_count + word - 1) % word
    popped := Function.update s.popped p (s.popped p ++ [h])}

def unlock (s : State Worker Caller) : State Worker Caller := {s with mutex := none}

end State

inductive Step : Act Worker Caller → State Worker Caller → State Worker Caller → Prop where
  -- `worker_loop`
  | go {s w} : s.work w = .testing → s.running = true → Step (.work w) s (s.workAt w .locking)
  | stopped {s w} : s.work w = .testing → s.running = false → Step (.work w) s (s.workAt w .returned)
  | lock {s w} : s.work w = .locking → s.mutex = none →
      Step (.work w) s ({s with mutex := some w}.workAt w .counting)
  | queued {s w} : s.work w = .counting → s.queued_count ≠ 0 → Step (.work w) s (s.workAt w .deciding)
  | unqueued {s w} : s.work w = .counting → s.queued_count = 0 → Step (.work w) s (s.workAt w .asking)
  | wait {s w} : s.work w = .asking → s.running = true → Step (.work w) s (s.workAt w .blocking)
  | shutdown {s w} : s.work w = .asking → s.running = false → Step (.work w) s (s.workAt w .deciding)
  | block {s w} : s.work w = .blocking → Step (.work w) s (s.unlock.workAt w .blocked)
  | wake {s w} : s.work w = .blocked → Step (.wake w) s (s.workAt w .woken)
  | relock {s w} : s.work w = .woken → s.mutex = none →
      Step (.work w) s ({s with mutex := some w}.workAt w .counting)
  | empty {s w} : s.work w = .deciding → s.queued_count = 0 → Step (.work w) s (s.workAt w .leaving)
  | leave {s w} : s.work w = .leaving → s.running = false → Step (.work w) s (s.unlock.workAt w .returned)
  | again {s w} : s.work w = .leaving → s.running = true → Step (.work w) s (s.unlock.workAt w .testing)
  | pop {s w h p q} : s.work w = .deciding → s.queued_count ≠ 0 →
      pop_locked s.queued_count s.ready = some (h, p, q) →
      Step (.work w) s ((s.pop h p q).unlock.workAt w (.executing h))
  /-- `handle.valid()` is false. -/
  | miss {s w} : s.work w = .deciding → s.queued_count ≠ 0 → pop_locked s.queued_count s.ready = none →
      Step (.work w) s (s.unlock.workAt w .testing)
  | finish {s w h} : s.work w = .executing h → Step (.work w) s (s.workAt w .testing)
  -- `enqueue_ready`
  | enqueue_ready {s c} (h : TaskHandle) (p : TaskPriority) : s.call c = .idle →
      Step (.call c) s (s.callAt c (.pushing h p))
  | push {s c h p} : s.call c = .pushing h p → s.mutex = none →
      Step (.call c) s ((s.push h p).callAt c .notifying)
  | notify_none {s c} : s.call c = .notifying → (∀ w, s.work w ≠ .blocked) →
      Step (.notify c none) s (s.callAt c .idle)
  | notify_one {s c w} : s.call c = .notifying → s.work w = .blocked →
      Step (.notify c (some w)) s ((s.workAt w .woken).callAt c .idle)
  -- `try_pop`
  | try_pop {s c} : s.call c = .idle → Step (.call c) s (s.callAt c .popping)
  | popped {s c h p q} : s.call c = .popping → s.mutex = none →
      pop_locked s.queued_count s.ready = some (h, p, q) → Step (.call c) s ((s.pop h p q).callAt c .idle)
  | popMiss {s c} : s.call c = .popping → s.mutex = none → pop_locked s.queued_count s.ready = none →
      Step (.call c) s (s.callAt c .idle)
  -- the destructor
  | stop {s} : s.running = true → Step .stop s {s with running := false}
  | notify_all {s} : s.running = false → s.mutex = none →
      Step .notify_all s {s with work := fun w => match s.work w with
        | .blocked => .woken
        | p => p}

def initial : State Worker Caller where
  ready := .empty
  queued_count := 0
  mutex := none
  running := true
  work _ := .testing
  call _ := .idle
  pushed _ := []
  popped _ := []

def system (Worker Caller : Type*) [DecidableEq Worker] [DecidableEq Caller] :
    System (State Worker Caller) (Act Worker Caller) :=
  ⟨fun s => s = initial, Step⟩

/-- The queue holds fewer than `2^32` tasks, each of which has a slot of the pool. -/
def Sized (_ : Act Worker Caller) (s : State Worker Caller) : Prop := s.ready.total + 1 < word

end Thunderbolt.Scheduler.Standard
