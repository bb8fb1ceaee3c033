import Thunderbolt.Concurrent.System
import Thunderbolt.Executor.ReadyQueues
import Thunderbolt.Scheduler.Parking

/-! `ThunderboltRuntime` in `SchedulerMode::Static`.

The submitter picks the worker, round-robin, and pushes on that worker's inbox;
only that worker ever takes from it. All workers park on one condition variable,
so the notification that follows a push may reach another worker than the one
whose inbox was filled. A nested call made from a task's body (a submission, or
the tasks a wait helps with) is part of `executing`. -/
namespace Thunderbolt.Scheduler.Static
open Concurrent Executor

def kSpinsBeforePark : ℕ := 64

/-- Where a worker stands in `worker_loop`, while it is not inside `park_worker`. -/
inductive Work where
  /-- About to read `running_`, after `spins` misses. -/
  | looking (spins : ℕ)
  /-- `acquire_next`: about to pop its inbox. -/
  | popping (spins : ℕ)
  | executing
  | exited
  deriving DecidableEq

/-- A push decided on: the worker picked, the task, its priority. -/
structure Submission (n : ℕ) where
  target : Fin n
  handle : TaskHandle
  priority : TaskPriority

structure State (n : ℕ) (External : Type) where
  park : Parking.State (Fin n) (Fin n ⊕ External) ℕ
  inbox : Fin n → ReadyQueues
  /-- `static_cursor_`. -/
  cursor : ℕ
  work : Fin n → Work
  /-- Inside `enqueue_ready`, about to push. -/
  submission : Fin n ⊕ External → Option (Submission n)
  /-- The inbox a thread pushed on last. -/
  target : Fin n ⊕ External → Option (Fin n)

/-- `any_work_available`, which looks at the inboxes in turn; nothing is ever
pushed on the global queue in this mode. -/
def look {n : ℕ} {External : Type} (s : State n External) (j : ℕ) : Parking.Verdict ℕ :=
  if h : j < n then
    if (s.inbox ⟨j, h⟩).total > 0 then .work else .next (j + 1)
  else .nothing

inductive Act (n : ℕ) (External : Type) where
  | work (w : Fin n)
  | submit (t : Fin n ⊕ External)
  | park (a : Parking.Act (Fin n) (Fin n ⊕ External))

variable {n : ℕ} {External : Type} [DecidableEq External]

namespace State

def workAt (s : State n External) (w : Fin n) (p : Work) : State n External :=
  {s with work := Function.update s.work w p}

/-- No `enqueue_ready` of this thread is in progress. -/
def Free (s : State n External) (t : Fin n ⊕ External) : Prop :=
  s.submission t = none ∧ s.park.waker t = .idle

/-- The thread may submit: a worker from inside a task, anybody else at any time. -/
def MaySubmit (s : State n External) : Fin n ⊕ External → Prop
  | .inl w => s.work w = .executing
  | .inr _ => True

end State

inductive Step : Act n External → State n External → State n External → Prop where
  | stop {s w spins} : s.work w = .looking spins → s.park.sleeper w = .awake →
      s.park.running = false → Step (.work w) s (s.workAt w .exited)
  | loop {s w spins} : s.work w = .looking spins → s.park.sleeper w = .awake →
      s.park.running = true → Step (.work w) s (s.workAt w (.popping spins))
  | pop {s w spins h p q} : s.work w = .popping spins → (s.inbox w).pop false = some (h, p, q) →
      Step (.work w) s ({s with inbox := Function.update s.inbox w q}.workAt w .executing)
  | spin {s w spins} : s.work w = .popping spins → (s.inbox w).pop false = none →
      spins + 1 < kSpinsBeforePark → Step (.work w) s (s.workAt w (.looking (spins + 1)))
  | park {s w spins p} : s.work w = .popping spins → (s.inbox w).pop false = none →
      ¬spins + 1 < kSpinsBeforePark → Parking.Step (look s) 0 (.park w) s.park p →
      Step (.work w) s ({s with park := p}.workAt w (.looking 0))
  /-- `wait` inside a task runs another one. -/
  | help {s w h p q} : s.work w = .executing → s.Free (.inl w) →
      (s.inbox w).pop false = some (h, p, q) →
      Step (.work w) s {s with inbox := Function.update s.inbox w q}
  | finish {s w} : s.work w = .executing → s.Free (.inl w) →
      Step (.work w) s (s.workAt w (.looking 0))
  /-- `enqueue_ready`: the cursor picks the worker. -/
  | submit {s t} (h : TaskHandle) (p : TaskPriority) (w : Fin n) : s.MaySubmit t → s.Free t →
      (w : ℕ) = s.cursor % n →
      Step (.submit t) s
        {s with
          cursor := (s.cursor + 1) % word
          submission := Function.update s.submission t (some ⟨w, h, p⟩)}
  | push {s t x p} : s.submission t = some x → Parking.Step (look s) 0 (.wake t) s.park p →
      Step (.submit t) s
        {s with
          park := p
          inbox := Function.update s.inbox x.target ((s.inbox x.target).push x.handle x.priority)
          submission := Function.update s.submission t none
          target := Function.update s.target t (some x.target)}
  /-- Inside `park_worker`, inside `wake_one_worker`, and the destructor. -/
  | parking {s a p} : (∀ w, a ≠ .park w) → (∀ t, a ≠ .wake t) →
      Parking.Step (look s) 0 a s.park p → Step (.park a) s {s with park := p}

def initial : State n External where
  park := Parking.initial
  inbox _ := .empty
  cursor := 0
  work _ := .looking 0
  submission _ := none
  target _ := none

def system (n : ℕ) (External : Type) [DecidableEq External] :
    System (State n External) (Act n External) := ⟨fun s => s = initial, Step⟩

end Thunderbolt.Scheduler.Static
