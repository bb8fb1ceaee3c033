import Thunderbolt.Task.Alone
import Thunderbolt.Task.Successors

/-! `submit`, `submit_emplace` and `execute`, each with nothing else going on.

The pool is the one of the concurrent development, its operations run alone; a slot here also
holds what a task is made of. Where a ready task goes is the derived runtime's to say, and what
a body does is anything. -/
namespace Thunderbolt.Runtime.Submit
open Task.TaskPool

inductive TaskFlags where
  | None
  deriving DecidableEq

/-- `function` is what its storage holds; an empty one holds nothing. -/
structure TaskDesc (Fn : Type) where
  function : Option Fn
  priority : TaskPriority
  flags : TaskFlags
  estimated_cost : ℕ

/-- What a slot holds besides its generation and its state. -/
structure Task (Fn : Type) where
  function : Option Fn
  pending_dependencies : ℕ
  priority : TaskPriority
  flags : TaskFlags
  estimated_cost : ℕ
  successors : Successors TaskHandle

structure State (Tid Fn Queues : Type) where
  /-- Every pool and every thread's cache. -/
  pools : Thunderbolt.Task.TaskPool.State Tid
  tasks : ℕ → Task Fn
  ready : Queues
  outstanding_ : UInt64
  completed_ : ℕ
  inline_executions_ : ℕ
  uncaught_exceptions_ : ℕ
  acquire_count_ : ℕ
  release_count_ : ℕ
  /-- How often each slot has been released so far. -/
  releases : ℕ → ℕ
  /-- The handles returned to callers, each with its slot's releases at that time. -/
  issued : List (TaskHandle × ℕ)

/-- The id of the runtime's pool, and what is not `RuntimeBase`'s own. -/
structure Derived (Tid Fn Queues : Type) where
  id : ℕ
  preferred_shard : Tid → Shard
  /-- `TaskContext::kExternalThread` for a thread that is no worker. -/
  on_own_worker : Tid → ℕ
  enqueue_ready : Tid → TaskHandle → TaskPriority → Queues → Queues
  /-- What a body called on a thread leaves, and whether it threw. -/
  call : Fn → Tid → ℕ → State Tid Fn Queues → State Tid Fn Queues × Bool

variable {Tid Fn Queues Exception : Type} [DecidableEq Tid]

namespace State

variable (d : Derived Tid Fn Queues) (t : Tid)

/-- `pool_`. -/
def pool (s : State Tid Fn Queues) : Pool := s.pools.pools d.id

def setTask (s : State Tid Fn Queues) (i : ℕ) (task : Task Fn) : State Tid Fn Queues :=
  {s with tasks := Function.update s.tasks i task}

/-- `task->state.store(x)`. -/
def setState (s : State Tid Fn Queues) (i : ℕ) (x : TaskState) : State Tid Fn Queues :=
  {s with pools := s.pools.setSlot d.id i ⟨((s.pool d).slots i).generation, x⟩}

/-- `outstanding_.fetch_add(1)`. -/
def count (s : State Tid Fn Queues) : State Tid Fn Queues :=
  {s with outstanding_ := s.outstanding_ + 1}

def issue (s : State Tid Fn Queues) (h : TaskHandle) : State Tid Fn Queues :=
  {s with issued := (h, s.releases h.index) :: s.issued}

def enqueueReady (s : State Tid Fn Queues) (h : TaskHandle) (priority : TaskPriority) :
    State Tid Fn Queues :=
  {s with ready := d.enqueue_ready t h priority s.ready}

/-! ### The pool -/

/-- The slot a handle resolves to. -/
def get (s : State Tid Fn Queues) (h : TaskHandle) : Option ℕ :=
  if !h.valid || (s.pool d).capacity ≤ h.index then none
  else if ((s.pool d).slots h.index).generation ≠ h.generation then none
  else some h.index

/-- A slot comes with the generation its handle is to carry. -/
def take (s : State Tid Fn Queues) : State Tid Fn Queues × Option TaskHandle :=
  let s := {s with acquire_count_ := s.acquire_count_ + 1}
  let (pools, found) := s.pools.takeFreeSlot d.preferred_shard t d.id
  let s := {s with pools := pools}
  (s, found.map fun i => ⟨i, ((s.pool d).slots i).generation⟩)

/-- The slot is now its caller's. -/
def hold (s : State Tid Fn Queues) (h : TaskHandle) : State Tid Fn Queues :=
  {s with pools := s.pools.setHeld d.id (h ::ₘ (s.pool d).held)}

/-- The body is moved out of `desc` only when there is a slot. -/
def acquire (s : State Tid Fn Queues) (desc : TaskDesc Fn) :
    State Tid Fn Queues × TaskDesc Fn × TaskHandle :=
  match s.take d t with
  | (s, none) => (s, desc, .none)
  | (s, some h) =>
    let s := s.setTask h.index
      { function := desc.function
        pending_dependencies := 0
        priority := desc.priority
        flags := desc.flags
        estimated_cost := desc.estimated_cost
        successors := (s.tasks h.index).successors.reopen }
    let s := s.setState d h.index .Created
    (s.hold d h, {desc with function := none}, h)

/-- The body and the state are left to the caller. -/
def reserve (s : State Tid Fn Queues) (priority : TaskPriority) :
    State Tid Fn Queues × Option TaskHandle :=
  match s.take d t with
  | (s, none) => (s, none)
  | (s, some h) =>
    let s := s.setTask h.index
      { function := (s.tasks h.index).function
        pending_dependencies := 0
        priority := priority
        flags := .None
        estimated_cost := 0
        successors := (s.tasks h.index).successors.reopen }
    (s.hold d h, some h)

def release (s : State Tid Fn Queues) (h : TaskHandle) : State Tid Fn Queues :=
  let task := s.tasks h.index
  let s := s.setTask h.index {task with function := none, successors := task.successors.reset}
  let slot : Slot := ⟨(((s.pool d).slots h.index).generation + 1) % word, .Free⟩
  let pools := (s.pools.setSlot d.id h.index slot).setHeld d.id ((s.pool d).held.erase h)
  {s with
    pools := pools.putFreeSlot d.preferred_shard t d.id h.index
    release_count_ := s.release_count_ + 1
    releases := Function.update s.releases h.index (s.releases h.index + 1)}

/-! ### The runtime -/

def runInline (s : State Tid Fn Queues) (desc : TaskDesc Fn) : State Tid Fn Queues :=
  let s := {s with inline_executions_ := s.inline_executions_ + 1}
  let s := match desc.function with
    | none => s
    | some f =>
      match d.call f t (d.on_own_worker t) s with
      | (s, false) => s
      | (s, true) => {s with uncaught_exceptions_ := s.uncaught_exceptions_ + 1}
  {s with outstanding_ := s.outstanding_ - 1}

/-- The handle returned is the one just acquired, and resolves (`get_acquired`). -/
def submit (s : State Tid Fn Queues) (desc : TaskDesc Fn) : State Tid Fn Queues × TaskHandle :=
  let priority := desc.priority
  let s := s.count
  let (s, desc, handle) := s.acquire d t desc
  if !handle.valid then (s.runInline d t desc, .none)
  else
    match s.get d handle with
    | none => (s, handle)
    | some i => (((s.setState d i .Queued).enqueueReady d t handle priority).issue handle, handle)

/-- `TaskFunction::emplace` as the caller's trampoline uses it: reset, then the copy or the move,
which may throw. -/
def emplace (construct : Except Exception Fn) : Option Fn × Except Exception Unit :=
  match construct with
  | .ok f => (some f, .ok ())
  | .error e => (none, .error e)

def submitEmplace (s : State Tid Fn Queues) (construct : Except Exception Fn)
    (priority : TaskPriority) : State Tid Fn Queues × Except Exception TaskHandle :=
  let s := s.count
  match s.reserve d t priority with
  | (s, none) =>
    let (function, result) := emplace construct
    match result with
    | .error e => ({s with outstanding_ := s.outstanding_ - 1}, .error e)
    | .ok () => (s.runInline d t ⟨function, priority, .None, 0⟩, .ok .none)
  | (s, some handle) =>
    let (function, result) := emplace construct
    let s := s.setTask handle.index {s.tasks handle.index with function := function}
    match result with
    | .error e =>
      let s := s.release d t handle
      ({s with outstanding_ := s.outstanding_ - 1}, .error e)
    | .ok () =>
      let s := s.setState d handle.index .Queued
      ((s.enqueueReady d t handle priority).issue handle, .ok handle)

def releaseDependent (s : State Tid Fn Queues) (dependent : TaskHandle) : State Tid Fn Queues :=
  match s.get d dependent with
  | none => s
  | some i =>
    let task := s.tasks i
    let s := s.setTask i {task with pending_dependencies := (task.pending_dependencies + word - 1) % word}
    if task.pending_dependencies = 1 then
      (s.setState d i .Queued).enqueueReady d t dependent task.priority
    else s

def complete (s : State Tid Fn Queues) (h : TaskHandle) : State Tid Fn Queues :=
  let task := s.tasks h.index
  let (list, successors) := task.successors.take []
  let s := s.setTask h.index {task with successors := list}
  let s := s.setState d h.index .Completed
  let s := s.release d t h
  let s := successors.foldl (fun s dependent => s.releaseDependent d t dependent) s
  {s with completed_ := s.completed_ + 1, outstanding_ := s.outstanding_ - 1}

/-- Of a task with a body. -/
def execute (s : State Tid Fn Queues) (h : TaskHandle) : State Tid Fn Queues :=
  match s.get d h with
  | none => s
  | some i =>
    let s := s.setState d i .Executing
    match (s.tasks i).function with
    | none => s
    | some f =>
      match d.call f t (d.on_own_worker t) s with
      | (s, false) => s.complete d t h
      | (s, true) => {s with uncaught_exceptions_ := s.uncaught_exceptions_ + 1}.complete d t h

end State
end Thunderbolt.Runtime.Submit
