import Thunderbolt.Concurrent.System
import Thunderbolt.Concurrent.Threads

/-! The counter `outstanding_` and the threads that wait for it to reach zero.

Every submission raises `outstanding_` before it asks for a slot, and lowers it
exactly once: in `complete()`, at the end of `run_inline`, or on one of the two
paths of `submit_emplace` that hand the count back when constructing the body
throws. `wait_all()` blocks an external thread on `completion_cv_` until the
counter reads zero. Only `complete()` decides whether to notify.

Each thread is at a program counter between two accesses of shared memory, and
any thread may move next. A thread inside a task body that calls the runtime
again is a second thread here: nothing below relies on the caller being held up. -/
namespace Thunderbolt.Runtime.WaitAll
open Concurrent

/-- Which submission call: `submit` and `submit_after`, whose body exists
already, or `submit_emplace`, whose `construct` callback may throw. -/
inductive Entry where
  | submit
  | emplace
  deriving DecidableEq

/-- Where a thread stands. -/
inductive Pc where
  | idle
  /-- A submission: `outstanding_` is raised, the pool not yet asked for a slot. -/
  | counted (e : Entry)
  /-- A slot is taken; the body is not yet published. -/
  | placed (e : Entry)
  /-- `construct` threw with a slot in hand: `pool_.release(handle)` is next. -/
  | returning
  /-- A throw path of `submit_emplace`, about to lower `outstanding_`. -/
  | unwinding
  /-- `run_inline`: the body runs on this thread. -/
  | running
  /-- `run_inline`: the body is over, about to lower `outstanding_`. -/
  | settling
  /-- `execute()`: the body of a pooled task. -/
  | executing
  /-- `complete()`: from `take_successors` to the last `release_dependent`. -/
  | completing
  /-- `complete()`: `outstanding_` lowered to `remaining`, reading the handle waiters. -/
  | scanning (remaining : ℕ)
  /-- `complete()`: `wake_handle_waiters` is known, `all_waiters_` not yet read. -/
  | deciding (remaining : ℕ) (wakeHandleWaiters : Bool)
  /-- `complete()`: about to lock and unlock `completion_mutex_`. -/
  | locking
  /-- `complete()`: about to call `notify_all`. -/
  | notifying
  /-- `wait_all()`: about to read `outstanding_` for the early return. -/
  | entering
  /-- `wait_all()` on a worker: executing ready tasks until the counter reads zero. -/
  | helping
  /-- `wait_all()`: about to raise `all_waiters_`. -/
  | registering
  /-- `wait_all()`: about to lock `completion_mutex_`. -/
  | acquiring
  /-- `wait_all()`: holding the mutex, about to evaluate the predicate. -/
  | testing
  /-- `wait_all()`: the predicate was false, about to release the mutex and block. -/
  | blocking
  /-- `wait_all()`: blocked in `completion_cv_.wait`. -/
  | blocked
  /-- `wait_all()`: woken, about to lock `completion_mutex_` again. -/
  | woken
  /-- `wait_all()`: the mutex released, about to lower `all_waiters_`. -/
  | leaving
  deriving DecidableEq

variable {Tid : Type} [DecidableEq Tid]

structure State (Tid : Type) where
  /-- `outstanding_`. -/
  outstanding : ℕ
  /-- `all_waiters_`. -/
  allWaiters : ℕ
  /-- The holder of `completion_mutex_`. -/
  mutex : Option Tid
  /-- Tasks published to the derived runtime and not yet taken by a worker. -/
  pooled : ℕ
  pc : Tid → Pc

namespace State

def goto (s : State Tid) (t : Tid) (p : Pc) : State Tid := {s with pc := Function.update s.pc t p}

/-- `notify_all`: every blocked thread becomes runnable. -/
def wake (s : State Tid) : State Tid :=
  {s with pc := fun u => if s.pc u = .blocked then .woken else s.pc u}

end State

/-- One atomic step of thread `t`. -/
inductive Step (t : Tid) : State Tid → State Tid → Prop where
  /-- `outstanding_.fetch_add(1)`, before the task can become visible. -/
  | submit {s} (e : Entry) : s.pc t = .idle →
      Step t s ({s with outstanding := s.outstanding + 1}.goto t (.counted e))
  | acquire {s e} : s.pc t = .counted e → Step t s (s.goto t (.placed e))
  /-- Pool exhausted. `submit_after` waits for its predecessors first. -/
  | exhausted {s e} : s.pc t = .counted e → Step t s (s.goto t .running)
  /-- Pool exhausted and `construct(desc.function, source)` throws. -/
  | exhaustedThrow {s} : s.pc t = .counted .emplace → Step t s (s.goto t .unwinding)
  /-- The task reaches `enqueue_ready`, here or when its last dependency completes. -/
  | publish {s e} : s.pc t = .placed e →
      Step t s ({s with pooled := s.pooled + 1}.goto t .idle)
  /-- `construct(task->function, source)` throws. -/
  | constructThrow {s} : s.pc t = .placed .emplace → Step t s (s.goto t .returning)
  | giveBack {s} : s.pc t = .returning → Step t s (s.goto t .unwinding)
  | unwind {s} : s.pc t = .unwinding →
      Step t s ({s with outstanding := s.outstanding - 1}.goto t .idle)
  | inlineEnd {s} : s.pc t = .running → Step t s (s.goto t .settling)
  | settle {s} : s.pc t = .settling →
      Step t s ({s with outstanding := s.outstanding - 1}.goto t .idle)
  | execute {s} : s.pc t = .idle → 0 < s.pooled →
      Step t s ({s with pooled := s.pooled - 1}.goto t .executing)
  | bodyEnd {s} : s.pc t = .executing → Step t s (s.goto t .completing)
  /-- `remaining = outstanding_.fetch_sub(1) - 1`. -/
  | lower {s} : s.pc t = .completing →
      Step t s ({s with outstanding := s.outstanding - 1}.goto t (.scanning (s.outstanding - 1)))
  /-- What the reads of the handle-waiter data say is left open here. -/
  | scan {s r} (wakeHandleWaiters : Bool) : s.pc t = .scanning r →
      Step t s (s.goto t (.deciding r wakeHandleWaiters))
  | silent {s r} : s.pc t = .deciding r false → ¬(r = 0 ∧ s.allWaiters ≠ 0) →
      Step t s (s.goto t .idle)
  | decide {s r w} : s.pc t = .deciding r w → w = true ∨ (r = 0 ∧ s.allWaiters ≠ 0) →
      Step t s (s.goto t .locking)
  | lock {s} : s.pc t = .locking → s.mutex = none → Step t s (s.goto t .notifying)
  | notifyAll {s} : s.pc t = .notifying → Step t s (s.wake.goto t .idle)
  | waitAll {s} : s.pc t = .idle → Step t s (s.goto t .entering)
  | nothingToDo {s} : s.pc t = .entering → s.outstanding = 0 → Step t s (s.goto t .idle)
  | onWorker {s} : s.pc t = .entering → s.outstanding ≠ 0 → Step t s (s.goto t .helping)
  | onExternal {s} : s.pc t = .entering → s.outstanding ≠ 0 → Step t s (s.goto t .registering)
  | helped {s} : s.pc t = .helping → s.outstanding = 0 → Step t s (s.goto t .idle)
  | register {s} : s.pc t = .registering →
      Step t s ({s with allWaiters := s.allWaiters + 1}.goto t .acquiring)
  | takeMutex {s} : s.pc t = .acquiring → s.mutex = none →
      Step t s ({s with mutex := some t}.goto t .testing)
  | satisfied {s} : s.pc t = .testing → s.outstanding = 0 →
      Step t s ({s with mutex := none}.goto t .leaving)
  | unsatisfied {s} : s.pc t = .testing → s.outstanding ≠ 0 → Step t s (s.goto t .blocking)
  /-- `completion_cv_.wait` releases the mutex and blocks in one step. -/
  | block {s} : s.pc t = .blocking → Step t s ({s with mutex := none}.goto t .blocked)
  | spurious {s} : s.pc t = .blocked → Step t s (s.goto t .woken)
  | retake {s} : s.pc t = .woken → s.mutex = none →
      Step t s ({s with mutex := some t}.goto t .testing)
  | deregister {s} : s.pc t = .leaving →
      Step t s ({s with allWaiters := s.allWaiters - 1}.goto t .idle)

/-- A runtime nobody has called yet. -/
def initial : State Tid := ⟨0, 0, none, 0, fun _ => .idle⟩

/-- The whole system: any thread may move. -/
def system (Tid : Type) [DecidableEq Tid] : System (State Tid) Tid :=
  ⟨fun s => s = initial, fun t s s' => Step t s s'⟩

end Thunderbolt.Runtime.WaitAll
