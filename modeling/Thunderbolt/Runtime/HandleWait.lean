import Thunderbolt.Concurrent.System
import Thunderbolt.Concurrent.Threads
import Thunderbolt.Task.Handle

/-! `wait(handle)` and the targeted wakeup in `complete()`.

An external waiter claims one of `kMaxHandleWaiterSlots` slots for the index it
waits on, or counts itself as an overflow, raises `handle_waiters_`, and then
evaluates `is_complete_internal` under `completion_mutex_` until it holds.
`complete()` publishes the task's end, in `state` and by advancing the slot's
generation, and only then reads the counter, the overflow count and the slots,
one at a time, to decide whether anybody needs `notify_all`.

Slots of the pool are recycled: a finished task's slot is taken by later tasks
while waiters on the old handle are still around. -/
namespace Thunderbolt.Runtime.HandleWait
open Concurrent

def kNoWaitedIndex : ℕ := 0xFFFFFFFF
def kMaxHandleWaiterSlots : ℕ := 32

/-- Where a registration went: a slot below `kMaxHandleWaiterSlots`, or that
number for the overflow count. -/
abbrev Place := ℕ

/-- Who evaluates `is_complete_internal`: `wait()` on entry, without the mutex,
or the predicate of `completion_cv_.wait`, with it. -/
inductive Caller where
  | entry
  | predicate (place : Place)

/-- Where a thread stands. -/
inductive Pc where
  | idle
  /-- A submission holds slot `i`, not yet published. -/
  | creating (i : ℕ)
  /-- `execute()`: the body runs. -/
  | executing (h : TaskHandle)
  /-- `complete()`: the successors are taken, about to store `Completed`. -/
  | completing (h : TaskHandle)
  /-- `release()`: about to advance the generation. -/
  | releasing (h : TaskHandle)
  /-- `release()`: about to store `Free`. -/
  | bumped (h : TaskHandle)
  /-- `release()`: about to put the slot on the free list. -/
  | listing (h : TaskHandle)
  /-- `complete()`: releasing the dependents, lowering `outstanding_`. -/
  | freed (h : TaskHandle)
  /-- `complete()`: about to read `handle_waiters_`. -/
  | readWaiters (h : TaskHandle)
  /-- `complete()`: about to read `handle_waiter_overflow_count_`. -/
  | readOverflow (h : TaskHandle)
  /-- `complete()`: about to read waiter slot `j`. -/
  | scanning (h : TaskHandle) (j : ℕ)
  /-- `complete()`: `wake_handle_waiters` is known. -/
  | deciding (wakeHandleWaiters : Bool)
  /-- `complete()`: about to lock and unlock `completion_mutex_`. -/
  | locking
  /-- `complete()`: about to call `notify_all`. -/
  | notifying
  /-- `is_complete_internal`: about to read the generation in `get`. -/
  | getting (c : Caller) (h : TaskHandle)
  /-- `is_complete_internal`: about to read the state. -/
  | reading (c : Caller) (h : TaskHandle)
  /-- `is_complete_internal`: about to read the generation again. -/
  | rereading (c : Caller) (h : TaskHandle) (state : TaskState)
  /-- `register_handle_waiter`: about to compare-exchange slot `j`. -/
  | claiming (h : TaskHandle) (j : ℕ)
  /-- `wait()`: registered, about to raise `handle_waiters_`. -/
  | raising (h : TaskHandle) (place : Place)
  /-- `wait()`: about to lock `completion_mutex_`. -/
  | acquiring (h : TaskHandle) (place : Place)
  /-- `wait()`: the predicate was false, about to release the mutex and block. -/
  | blocking (h : TaskHandle) (place : Place)
  /-- `wait()`: blocked in `completion_cv_.wait`. -/
  | blocked (h : TaskHandle) (place : Place)
  /-- `wait()`: woken, about to lock `completion_mutex_` again. -/
  | woken (h : TaskHandle) (place : Place)
  /-- `wait()`: the mutex released, about to lower `handle_waiters_`. -/
  | lowering (h : TaskHandle) (place : Place)
  /-- `wait()`: about to run `unregister_handle_waiter`. -/
  | leaving (h : TaskHandle) (place : Place)

/-- What this protocol uses of a task slot. -/
structure Slot where
  generation : ℕ
  state : TaskState
  deriving DecidableEq

variable {Tid : Type} [DecidableEq Tid]

structure State (Tid : Type) where
  slots : ℕ → Slot
  /-- On the pool's free list. -/
  free : ℕ → Bool
  /-- `handle_waiters_`. -/
  handleWaiters : ℕ
  /-- `handle_waiter_overflow_count_`. -/
  overflow : ℕ
  /-- `handle_waiter_slots_`. -/
  waiterSlots : ℕ → ℕ
  /-- The holder of `completion_mutex_`. -/
  mutex : Option Tid
  pc : Tid → Pc

namespace State

def goto (s : State Tid) (t : Tid) (p : Pc) : State Tid := {s with pc := Function.update s.pc t p}

def setState (s : State Tid) (i : ℕ) (x : TaskState) : State Tid :=
  {s with slots := Function.update s.slots i ⟨(s.slots i).generation, x⟩}

/-- `generation.fetch_add(1)`. -/
def bump (s : State Tid) (i : ℕ) : State Tid :=
  {s with
    slots := Function.update s.slots i ⟨((s.slots i).generation + 1) % word, (s.slots i).state⟩}

def setWaiterSlot (s : State Tid) (j x : ℕ) : State Tid :=
  {s with waiterSlots := Function.update s.waiterSlots j x}

/-- `notify_all`: every blocked thread becomes runnable. -/
def wake (s : State Tid) : State Tid :=
  {s with pc := fun u => match s.pc u with
    | .blocked h k => .woken h k
    | p => p}

end State

/-- `TaskPool::get` resolves the handle. -/
def Resolves (capacity : ℕ) (s : State Tid) (h : TaskHandle) : Prop :=
  h.valid = true ∧ h.index < capacity ∧ (s.slots h.index).generation = h.generation

/-- What `is_complete_internal` answers when nothing moves while it reads. -/
def Complete (capacity : ℕ) (s : State Tid) (h : TaskHandle) : Prop :=
  ¬Resolves capacity s h ∨ (s.slots h.index).state = .Completed

/-- Where a true answer sends the thread. -/
def Caller.found (h : TaskHandle) : Caller → Pc
  | .entry => .idle
  | .predicate k => .lowering h k

/-- The mutex after a true answer: the predicate's caller leaves the critical section. -/
def Caller.unlock (m : Option Tid) : Caller → Option Tid
  | .entry => m
  | .predicate _ => none

/-- One atomic step of thread `t`, with a pool of `capacity` slots. -/
inductive Step (capacity : ℕ) (t : Tid) : State Tid → State Tid → Prop where
  /-- `acquire`: some slot of the free list, whichever the caller's shard or cache gives. -/
  | acquire {s} (i : ℕ) : s.pc t = .idle → i < capacity → s.free i = true →
      Step capacity t s
        (({s with free := Function.update s.free i false}.setState i .Created).goto t (.creating i))
  /-- The task becomes ready, here or when its last dependency completes. -/
  | publish {s i} : s.pc t = .creating i →
      Step capacity t s ((s.setState i .Queued).goto t .idle)
  | execute {s} (i : ℕ) : s.pc t = .idle → i < capacity → (s.slots i).state = .Queued →
      Step capacity t s
        ((s.setState i .Executing).goto t (.executing ⟨i, (s.slots i).generation⟩))
  | bodyEnd {s h} : s.pc t = .executing h → Step capacity t s (s.goto t (.completing h))
  | complete {s h} : s.pc t = .completing h →
      Step capacity t s ((s.setState h.index .Completed).goto t (.releasing h))
  | bump {s h} : s.pc t = .releasing h →
      Step capacity t s ((s.bump h.index).goto t (.bumped h))
  | dormant {s h} : s.pc t = .bumped h →
      Step capacity t s ((s.setState h.index .Free).goto t (.listing h))
  | list {s h} : s.pc t = .listing h →
      Step capacity t s ({s with free := Function.update s.free h.index true}.goto t (.freed h))
  | released {s h} : s.pc t = .freed h → Step capacity t s (s.goto t (.readWaiters h))
  | nobody {s h} : s.pc t = .readWaiters h → s.handleWaiters = 0 →
      Step capacity t s (s.goto t (.deciding false))
  | somebody {s h} : s.pc t = .readWaiters h → s.handleWaiters ≠ 0 →
      Step capacity t s (s.goto t (.readOverflow h))
  /-- Cannot tell who needs waking. -/
  | overflowed {s h} : s.pc t = .readOverflow h → s.overflow ≠ 0 →
      Step capacity t s (s.goto t (.deciding true))
  | slotsOnly {s h} : s.pc t = .readOverflow h → s.overflow = 0 →
      Step capacity t s (s.goto t (.scanning h 0))
  | hit {s h j} : s.pc t = .scanning h j → j < kMaxHandleWaiterSlots →
      s.waiterSlots j = h.index → Step capacity t s (s.goto t (.deciding true))
  | miss {s h j} : s.pc t = .scanning h j → j < kMaxHandleWaiterSlots →
      s.waiterSlots j ≠ h.index → Step capacity t s (s.goto t (.scanning h (j + 1)))
  | scanned {s h j} : s.pc t = .scanning h j → ¬j < kMaxHandleWaiterSlots →
      Step capacity t s (s.goto t (.deciding false))
  | silent {s} : s.pc t = .deciding false → Step capacity t s (s.goto t .idle)
  /-- Also when only `wake_all_waiters` holds. -/
  | decide {s w} : s.pc t = .deciding w → Step capacity t s (s.goto t .locking)
  | lock {s} : s.pc t = .locking → s.mutex = none → Step capacity t s (s.goto t .notifying)
  | notifyAll {s} : s.pc t = .notifying → Step capacity t s (s.wake.goto t .idle)
  | wait {s} (h : TaskHandle) : s.pc t = .idle → Step capacity t s (s.goto t (.getting .entry h))
  /-- Not valid, or stale: complete. -/
  | stale {s c h} : s.pc t = .getting c h → ¬Resolves capacity s h →
      Step capacity t s ({s with mutex := c.unlock s.mutex}.goto t (c.found h))
  | resolved {s c h} : s.pc t = .getting c h → Resolves capacity s h →
      Step capacity t s (s.goto t (.reading c h))
  | read {s c h} : s.pc t = .reading c h →
      Step capacity t s (s.goto t (.rereading c h (s.slots h.index).state))
  | answerTrue {s c h x} : s.pc t = .rereading c h x →
      (s.slots h.index).generation ≠ h.generation ∨ x = .Completed →
      Step capacity t s ({s with mutex := c.unlock s.mutex}.goto t (c.found h))
  /-- A worker runs ready tasks and asks again. -/
  | help {s h x} : s.pc t = .rereading .entry h x →
      (s.slots h.index).generation = h.generation → x ≠ .Completed →
      Step capacity t s (s.goto t (.getting .entry h))
  | external {s h x} : s.pc t = .rereading .entry h x →
      (s.slots h.index).generation = h.generation → x ≠ .Completed →
      Step capacity t s (s.goto t (.claiming h 0))
  | answerFalse {s h k x} : s.pc t = .rereading (.predicate k) h x →
      (s.slots h.index).generation = h.generation → x ≠ .Completed →
      Step capacity t s (s.goto t (.blocking h k))
  | claim {s h j} : s.pc t = .claiming h j → j < kMaxHandleWaiterSlots →
      s.waiterSlots j = kNoWaitedIndex →
      Step capacity t s ((s.setWaiterSlot j h.index).goto t (.raising h j))
  | taken {s h j} : s.pc t = .claiming h j → j < kMaxHandleWaiterSlots →
      s.waiterSlots j ≠ kNoWaitedIndex → Step capacity t s (s.goto t (.claiming h (j + 1)))
  | overflow {s h j} : s.pc t = .claiming h j → ¬j < kMaxHandleWaiterSlots →
      Step capacity t s
        ({s with overflow := s.overflow + 1}.goto t (.raising h kMaxHandleWaiterSlots))
  | raise {s h k} : s.pc t = .raising h k →
      Step capacity t s ({s with handleWaiters := s.handleWaiters + 1}.goto t (.acquiring h k))
  | takeMutex {s h k} : s.pc t = .acquiring h k → s.mutex = none →
      Step capacity t s ({s with mutex := some t}.goto t (.getting (.predicate k) h))
  /-- `completion_cv_.wait` releases the mutex and blocks in one step. -/
  | block {s h k} : s.pc t = .blocking h k →
      Step capacity t s ({s with mutex := none}.goto t (.blocked h k))
  | spurious {s h k} : s.pc t = .blocked h k → Step capacity t s (s.goto t (.woken h k))
  | retake {s h k} : s.pc t = .woken h k → s.mutex = none →
      Step capacity t s ({s with mutex := some t}.goto t (.getting (.predicate k) h))
  | lower {s h k} : s.pc t = .lowering h k →
      Step capacity t s ({s with handleWaiters := s.handleWaiters - 1}.goto t (.leaving h k))
  | leaveSlot {s h k} : s.pc t = .leaving h k → k < kMaxHandleWaiterSlots →
      Step capacity t s ((s.setWaiterSlot k kNoWaitedIndex).goto t .idle)
  | leaveOverflow {s h k} : s.pc t = .leaving h k → ¬k < kMaxHandleWaiterSlots →
      Step capacity t s ({s with overflow := s.overflow - 1}.goto t .idle)

/-- Every slot free at generation zero, no waiter anywhere. -/
def initial : State Tid where
  slots _ := ⟨0, .Free⟩
  free _ := true
  handleWaiters := 0
  overflow := 0
  waiterSlots _ := kNoWaitedIndex
  mutex := none
  pc _ := .idle

/-- The whole system: any thread may move. -/
def system (Tid : Type) [DecidableEq Tid] (capacity : ℕ) : System (State Tid) Tid :=
  ⟨fun s => s = initial, Step capacity⟩

end Thunderbolt.Runtime.HandleWait
