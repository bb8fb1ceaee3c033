import Thunderbolt.Executor.ReadyQueues
import Thunderbolt.Scheduler.Stealing

/-! `acquire_next` of a runtime with one worker, as a function.

The worker's five deques and the global queue are lists here, and each of their
operations is one step: a deque is pushed and popped at the back. With one worker
there is nobody to steal from, so `acquire_next` is its own deques, then the
global queue, and on an aging turn the global queue before both. -/
namespace Thunderbolt.Scheduler.Acquire
open Executor Stealing

/-- A task and the priority it was enqueued with. -/
abbrev Entry := TaskHandle × TaskPriority

def capacity (cfg : RuntimeConfig) : ℕ := 2 ^ cfg.capacityBits

/-- The worker, its deques (the back is the end it works at), and the global queue. -/
structure State where
  global : ReadyQueues
  queues : ReadyQueues
  pop_index : ℕ

/-- `AbpDeque::push`, on the deque of one priority; it may be full. -/
def pushLocal (cfg : RuntimeConfig) (queues : ReadyQueues) (x : Entry) : Option ReadyQueues :=
  if (queues x.2).length < capacity cfg then some (queues.push x.1 x.2) else none

/-- `AbpDeque::pop`. -/
def popBack (queues : ReadyQueues) (p : TaskPriority) : Option (Entry × ReadyQueues) :=
  match (queues p).getLast? with
  | none => none
  | some h => some ((h, p), Function.update queues p (queues p).dropLast)

namespace State

def lowestFirst (cfg : RuntimeConfig) (s : State) : Bool :=
  aging_pop_favours_lowest cfg.scheduler s.pop_index

/-- `GlobalQueue::push` and `AbpDeque::push` as `enqueue_ready` calls them: from a
task, on the worker's own deque unless it is full. -/
def enqueue_ready (cfg : RuntimeConfig) (s : State) (onOwnWorker : Bool) (x : Entry) : State :=
  match if onOwnWorker then pushLocal cfg s.queues x else none with
  | some queues => {s with queues}
  | none => {s with global := s.global.push x.1 x.2}

/-- A probe that finds the deque empty passes over it without a pop. -/
def pop_local (cfg : RuntimeConfig) (s : State) : Option (Entry × State) :=
  (scan (s.lowestFirst cfg)).findSome? fun p =>
    if cfg.skipEmptyDeques && (s.queues p).isEmpty then none
    else (popBack s.queues p).map fun (x, queues) =>
      (x, {s with queues, pop_index := s.pop_index + 1})

/-- The batch loop of `drain_global`, with so many rounds left. -/
def stock (cfg : RuntimeConfig) : ℕ → State → State
  | 0, s => s
  | rounds + 1, s =>
    match s.global.pop false with
    | none => s
    | some (h, p, global) =>
      match pushLocal cfg s.queues (h, p) with
      | some queues => stock cfg rounds {s with global, queues}
      | none => {s with global := global.push h p}

def drain_global (cfg : RuntimeConfig) (s : State) : Option (Entry × State) :=
  match s.global.pop (s.lowestFirst cfg) with
  | none => none
  | some (h, p, global) =>
    some ((h, p), stock cfg (kGlobalDrainBatch - 1) {s with global, pop_index := s.pop_index + 1})

/-- On an aging turn, the least urgent task of the global queue. -/
def popAged (cfg : RuntimeConfig) (s : State) : Option (Entry × State) :=
  if s.lowestFirst cfg then
    (s.global.pop true).map fun (h, p, global) =>
      ((h, p), {s with global, pop_index := s.pop_index + 1})
  else none

def acquire_next (cfg : RuntimeConfig) (s : State) : Option (Entry × State) :=
  s.popAged cfg <|> s.pop_local cfg <|> s.drain_global cfg

def initial : State := ⟨.empty, .empty, 0⟩

end State

/-! ### Runs: submissions and acquisitions in any order -/

inductive Event where
  /-- Somebody submits, from inside a task or from outside the runtime. -/
  | enqueue (onOwnWorker : Bool) (x : Entry)
  | acquire
  deriving DecidableEq

namespace State

/-- The state after one event; an acquisition that finds nothing changes nothing. -/
def after (cfg : RuntimeConfig) (s : State) : Event → State
  | .enqueue onOwnWorker x => s.enqueue_ready cfg onOwnWorker x
  | .acquire => ((s.acquire_next cfg).map Prod.snd).getD s

/-- What the event hands out. -/
def handed (cfg : RuntimeConfig) (s : State) : Event → Option Entry
  | .enqueue _ _ => none
  | .acquire => (s.acquire_next cfg).map Prod.fst

def run (cfg : RuntimeConfig) (s : State) (es : List Event) : State := es.foldl (after cfg) s

/-- The priorities handed out by a run, in order. -/
def priorities (cfg : RuntimeConfig) : State → List Event → List TaskPriority
  | _, [] => []
  | s, e :: es => ((s.handed cfg e).map Prod.snd).toList ++ (s.after cfg e).priorities cfg es

/-- Every event of the run happens in a state that meets `C`. -/
def Along (cfg : RuntimeConfig) (C : Event → State → Prop) : State → List Event → Prop
  | _, [] => True
  | s, e :: es => C e s ∧ (s.after cfg e).Along cfg C es

instance {C : Event → State → Prop} [∀ e s, Decidable (C e s)] :
    ∀ (s : State) (es : List Event), Decidable (s.Along cfg C es)
  | _, [] => isTrue trivial
  | s, e :: es =>
    haveI : Decidable ((s.after cfg e).Along cfg C es) := instDecidableAlong _ es
    inferInstanceAs (Decidable (C e s ∧ _))

/-- A task of this priority is queued. -/
def Queued (s : State) (p : TaskPriority) : Prop := s.global p ≠ [] ∨ s.queues p ≠ []

instance (s : State) (p : TaskPriority) : Decidable (s.Queued p) :=
  inferInstanceAs (Decidable (_ ∨ _))

/-- If anything is queued, an acquisition takes the first of it all: the most urgent,
or the least. -/
def TakesFirst (cfg : RuntimeConfig) (lowestFirst : Bool) (s : State) : Prop :=
  ∀ q, s.Queued q → ∃ x s', s.acquire_next cfg = some (x, s') ∧ s.Queued x.2 ∧
    Ahead lowestFirst x.2 q

end State

/-- Looking in `a` before `b` passes over nothing: `a` is empty, or nothing in `b` is
ahead of all there is in `a`. -/
def Precedes (lowestFirst : Bool) (a b : ReadyQueues) : Prop :=
  ∀ q, b q ≠ [] → (∃ p, a p ≠ []) → ∃ p, a p ≠ [] ∧ Ahead lowestFirst p q

instance (lowestFirst : Bool) (a b : ReadyQueues) : Decidable (Precedes lowestFirst a b) :=
  decidable_of_iff (∀ q ∈ scan false, b q ≠ [] → (∃ p ∈ scan false, a p ≠ []) →
      ∃ p ∈ scan false, a p ≠ [] ∧ Ahead lowestFirst p q) <| by
    simp [Precedes, mem_scan]

/-! ### The standard runtime -/

/-- `StandardRuntime`: one list of queues under a lock, popped by `pop_locked`. -/
def standardPriorities : ReadyQueues → List Event → List TaskPriority
  | _, [] => []
  | ready, .enqueue _ x :: es => standardPriorities (ready.push x.1 x.2) es
  | ready, .acquire :: es =>
    match ready.pop false with
    | none => standardPriorities ready es
    | some (_, p, ready') => p :: standardPriorities ready' es

end Thunderbolt.Scheduler.Acquire
