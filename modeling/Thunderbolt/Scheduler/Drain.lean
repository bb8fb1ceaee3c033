import Thunderbolt.Scheduler.Acquire

/-! The order in which tasks leave the global queue.

Any number of workers take from it: one task on an aging turn, a batch in `drain_global`. Each
operation on the global queue or on a deque is one step, and whatever the others do happens in
between. A batch that meets a full deque puts the task it has taken back, at the end.

The last two fields of a state are history and decide nothing. -/
namespace Thunderbolt.Scheduler.Drain
open Concurrent Executor Stealing Acquire

/-- Where a worker stands in `drain_global`. -/
inductive Pc where
  | idle
  /-- At the head of the batch loop. -/
  | batching (i : ℕ)
  /-- About to push the task it has taken on its own deque. -/
  | holding (i : ℕ) (x : Entry)

/-- A task that has left the global queue; until it is in the deque of the worker that holds it,
it may have to go back. -/
structure Departure (Worker : Type) where
  entry : Entry
  holder : Option Worker

structure State (Worker : Type) where
  global : ReadyQueues
  queues : Worker → ReadyQueues
  pop_index : Worker → ℕ
  drain : Worker → Pc
  /-- What `enqueue_ready` has pushed on the global queue, in order. -/
  pushed : List Entry
  /-- What has left it and was not put back, in order. -/
  departed : List (Departure Worker)

inductive Act (Worker : Type) where
  /-- `enqueue_ready`, by this worker or from outside. -/
  | enqueue (w : Option Worker) (x : Entry)
  /-- The aging pop of `acquire_next`. -/
  | age (w : Worker)
  /-- The first pop of `drain_global`. -/
  | drain (w : Worker)
  /-- The pop in the batch loop. -/
  | pull (w : Worker)
  /-- The push on the own deque, or back on the global queue. -/
  | stock (w : Worker)
  /-- The worker pops from its own deque. -/
  | popLocal (w : Worker) (p : TaskPriority)
  /-- A thief takes from it. -/
  | steal (w : Worker) (p : TaskPriority)

variable {Worker : Type} [DecidableEq Worker]

namespace State

def initial : State Worker := ⟨.empty, fun _ => .empty, fun _ => 0, fun _ => .idle, [], []⟩

def lowestFirst (cfg : RuntimeConfig) (s : State Worker) (w : Worker) : Bool :=
  aging_pop_favours_lowest cfg.scheduler (s.pop_index w)

def drainAt (s : State Worker) (w : Worker) (p : Pc) : State Worker :=
  {s with drain := Function.update s.drain w p}

def queuesAt (s : State Worker) (w : Worker) (q : ReadyQueues) : State Worker :=
  {s with queues := Function.update s.queues w q}

/-- `++worker.pop_index`. -/
def popped (s : State Worker) (w : Worker) : State Worker :=
  {s with pop_index := Function.update s.pop_index w (s.pop_index w + 1)}

/-- A task has been popped from the global queue, which is now `global`. -/
def depart (s : State Worker) (x : Entry) (holder : Option Worker) (global : ReadyQueues) :
    State Worker :=
  {s with global, departed := s.departed ++ [⟨x, holder⟩]}

/-- The task the worker holds is in its deque. -/
def settle (s : State Worker) (w : Worker) : State Worker :=
  {s with departed := s.departed.map fun d => if d.holder = some w then {d with holder := none} else d}

/-- The task the worker holds goes back on the global queue. -/
def putBack (s : State Worker) (w : Worker) (x : Entry) : State Worker :=
  {s with
    global := s.global.push x.1 x.2
    departed := s.departed.filter fun d => d.holder ≠ some w}

/-- The state after a step, if the step can be taken. -/
def next (cfg : RuntimeConfig) (s : State Worker) : Act Worker → Option (State Worker)
  | .enqueue none x => some {s with global := s.global.push x.1 x.2, pushed := s.pushed ++ [x]}
  | .enqueue (some w) x =>
    match s.drain w, pushLocal cfg (s.queues w) x with
    | .idle, some q => some (s.queuesAt w q)
    | .idle, none => some {s with global := s.global.push x.1 x.2, pushed := s.pushed ++ [x]}
    | _, _ => none
  | .age w =>
    match s.drain w, s.lowestFirst cfg w, s.global.pop true with
    | .idle, true, some (h, p, global) => some ((s.depart (h, p) none global).popped w)
    | _, _, _ => none
  | .drain w =>
    match s.drain w, s.global.pop (s.lowestFirst cfg w) with
    | .idle, some (h, p, global) =>
      some (((s.depart (h, p) none global).popped w).drainAt w (.batching 1))
    | _, _ => none
  | .pull w =>
    match s.drain w with
    | .batching i =>
      if i < kGlobalDrainBatch then
        match s.global.pop false with
        | some (h, p, global) => some ((s.depart (h, p) (some w) global).drainAt w (.holding i (h, p)))
        | none => some (s.drainAt w .idle)
      else some (s.drainAt w .idle)
    | _ => none
  | .stock w =>
    match s.drain w with
    | .holding i x =>
      match pushLocal cfg (s.queues w) x with
      | some q => some (((s.queuesAt w q).settle w).drainAt w (.batching (i + 1)))
      | none => some ((s.putBack w x).drainAt w .idle)
    | _ => none
  | .popLocal w p =>
    match s.drain w, popBack (s.queues w) p with
    | .idle, some (_, q) => some ((s.queuesAt w q).popped w)
    | _, _ => none
  | .steal w p =>
    match s.queues w p with
    | _ :: rest => some (s.queuesAt w (Function.update (s.queues w) p rest))
    | [] => none

/-- The tasks of one priority that were pushed, in order. -/
def pushedAt (s : State Worker) (p : TaskPriority) : List TaskHandle :=
  (s.pushed.filter fun x => x.2 = p).map Prod.fst

/-- The departures of one priority, in order. -/
def departedAt (s : State Worker) (p : TaskPriority) : List (Departure Worker) :=
  s.departed.filter fun d => d.entry.2 = p

/-- The tasks of one priority that have left and were not put back, in order. -/
def left (s : State Worker) (p : TaskPriority) : List TaskHandle := (s.departedAt p).map (·.entry.1)

/-- Tasks leave in the order in which they were pushed, and the rest is queued in that order. -/
def Fifo (s : State Worker) : Prop := ∀ p, s.left p ++ s.global p = s.pushedAt p

end State

def system (cfg : RuntimeConfig) (Worker : Type) [DecidableEq Worker] :
    System (State Worker) (Act Worker) :=
  ⟨fun s => s = .initial, fun a s s' => s.next cfg a = some s'⟩

/-- No task is put back out of its turn: when the deque is full, no task of the priority is queued
behind the one the worker holds, and none has left after it. -/
def InTurn (cfg : RuntimeConfig) : Act Worker → State Worker → Prop
  | .stock w, s => match s.drain w with
    | .holding _ x => pushLocal cfg (s.queues w) x = none →
      s.global x.2 = [] ∧ (s.departedAt x.2).getLast? = some ⟨x, some w⟩
    | _ => True
  | _, _ => True

end Thunderbolt.Scheduler.Drain
