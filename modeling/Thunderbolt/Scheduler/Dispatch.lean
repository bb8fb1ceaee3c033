import Mathlib.Data.Multiset.Basic
import Thunderbolt.Concurrent.Places
import Thunderbolt.Concurrent.System
import Thunderbolt.Scheduler.Acquire

/-! Where a task is between `enqueue_ready` and the return of `acquire_next`.

Every operation of a deque, of the global queue and of an inbox is one step here;
between two of them any other thread may act. A thread holds a task while it is
inside `enqueue_ready`, and a worker holds up to two inside `drain_global`: the one
it is about to return, and the one of the batch it is moving. -/
namespace Thunderbolt.Scheduler.Dispatch
open Concurrent Executor Stealing Acquire

/-- `SchedulerMode`: static, or one of the stealing modes. -/
inductive Mode where
  | Static
  | stealing (cfg : RuntimeConfig)

/-- Where a thread stands; those past `overflowing` are a worker's. -/
inductive Pc (n : ℕ) where
  | outside
  /-- `enqueue_ready`: nothing done yet. -/
  | enqueueing (x : Entry)
  /-- The cursor has picked this worker's inbox. -/
  | assigned (x : Entry) (target : Fin n)
  /-- The own deque is full. -/
  | overflowing (x : Entry)
  /-- At the head of `acquire_next`. -/
  | acquiring
  /-- `pop_local`: these priorities are left to look at. -/
  | scanning (rest : List TaskPriority)
  /-- The probe, if there is one, has found something. -/
  | popping (p : TaskPriority) (rest : List TaskPriority)
  /-- `drain_global` with `first` in hand: at the head of the batch loop. -/
  | batching (i : ℕ) (first : Entry)
  | stocking (i : ℕ) (first extra : Entry)
  /-- The own deque is full: about to put `extra` back. -/
  | restocking (first extra : Entry)
  /-- Out of the batch loop. -/
  | drained (first : Entry)
  /-- `steal_from_others`: these deques are left to look at. -/
  | stealing (victims : List (DequeId n))
  /-- `acquire_next` has returned. -/
  | returned (r : Option TaskHandle)

/-- What a thread at this counter holds. -/
def Pc.holds {n : ℕ} : Pc n → Multiset Entry
  | enqueueing x | assigned x _ | overflowing x => {x}
  | batching _ first | drained first => {first}
  | stocking _ first extra | restocking first extra => {first, extra}
  | _ => 0

structure State (n : ℕ) (External : Type) where
  global : ReadyQueues
  /-- The back is the owner's end, the front the thieves'. -/
  deques : DequeId n → List TaskHandle
  inbox : Fin n → ReadyQueues
  /-- `static_cursor_`. -/
  cursor : ℕ
  pop_index : Fin n → ℕ
  pc : Fin n ⊕ External → Pc n
  /-- What `enqueue_ready` was called with. -/
  enqueued : Multiset Entry
  /-- What `acquire_next` returned. -/
  handed : Multiset Entry

/-- Who takes the next step. A steal that loses a race is a step of its own: it needs
another thread inside the same operation. -/
inductive Act (n : ℕ) (External : Type) where
  | thread (t : Fin n ⊕ External)
  | abort (w : Fin n)

variable {n : ℕ} {External : Type} [DecidableEq External]

namespace State

def pcAt (s : State n External) (t : Fin n ⊕ External) (p : Pc n) : State n External :=
  {s with pc := Function.update s.pc t p}

def globalAt (s : State n External) (q : ReadyQueues) : State n External := {s with global := q}

def dequeAt (s : State n External) (x : DequeId n) (d : List TaskHandle) : State n External :=
  {s with deques := Function.update s.deques x d}

def inboxAt (s : State n External) (w : Fin n) (q : ReadyQueues) : State n External :=
  {s with inbox := Function.update s.inbox w q}

/-- `++worker.pop_index`. -/
def popped (s : State n External) (w : Fin n) : State n External :=
  {s with pop_index := Function.update s.pop_index w (s.pop_index w + 1)}

/-- `acquire_next` returns a task to the worker. -/
def hand (s : State n External) (w : Fin n) (x : Entry) : State n External :=
  {s with handed := x ::ₘ s.handed}.pcAt (.inl w) (.returned (some x.1))

def lowestFirst (cfg : RuntimeConfig) (s : State n External) (w : Fin n) : Bool :=
  aging_pop_favours_lowest cfg.scheduler (s.pop_index w)

end State

inductive Step (mode : Mode) : Act n External → State n External → State n External → Prop where
  /-- `enqueue_ready` is called, with a valid handle. -/
  | enqueue {s t} (h : TaskHandle) (p : TaskPriority) : s.pc t = .outside → h.valid = true →
      Step mode (.thread t) s
        ({s with enqueued := (h, p) ::ₘ s.enqueued}.pcAt t (.enqueueing (h, p)))
  | assign {s t x} (w : Fin n) : mode = .Static → s.pc t = .enqueueing x → (w : ℕ) = s.cursor % n →
      Step mode (.thread t) s ({s with cursor := (s.cursor + 1) % word}.pcAt t (.assigned x w))
  | deliver {s t x w} : s.pc t = .assigned x w →
      Step mode (.thread t) s ((s.inboxAt w ((s.inbox w).push x.1 x.2)).pcAt t .outside)
  | queued {s w x cfg} : mode = .stealing cfg → s.pc (.inl w) = .enqueueing x →
      (s.deques (w, x.2)).length < capacity cfg →
      Step mode (.thread (.inl w)) s
        ((s.dequeAt (w, x.2) (s.deques (w, x.2) ++ [x.1])).pcAt (.inl w) .outside)
  | full {s w x cfg} : mode = .stealing cfg → s.pc (.inl w) = .enqueueing x →
      ¬(s.deques (w, x.2)).length < capacity cfg →
      Step mode (.thread (.inl w)) s (s.pcAt (.inl w) (.overflowing x))
  | overflowed {s w x} : s.pc (.inl w) = .overflowing x →
      Step mode (.thread (.inl w)) s ((s.globalAt (s.global.push x.1 x.2)).pcAt (.inl w) .outside)
  | submitted {s e x cfg} : mode = .stealing cfg → s.pc (.inr e) = .enqueueing x →
      Step mode (.thread (.inr e)) s ((s.globalAt (s.global.push x.1 x.2)).pcAt (.inr e) .outside)
  -- `acquire_next`
  | acquire {s w} : s.pc (.inl w) = .outside →
      Step mode (.thread (.inl w)) s (s.pcAt (.inl w) .acquiring)
  | popInbox {s w h p q} : mode = .Static → s.pc (.inl w) = .acquiring →
      (s.inbox w).pop false = some (h, p, q) →
      Step mode (.thread (.inl w)) s (((s.inboxAt w q).popped w).hand w (h, p))
  | inboxEmpty {s w} : mode = .Static → s.pc (.inl w) = .acquiring →
      (s.inbox w).pop false = none →
      Step mode (.thread (.inl w)) s (s.pcAt (.inl w) (.returned none))
  | strict {s w cfg} : mode = .stealing cfg → s.pc (.inl w) = .acquiring →
      s.lowestFirst cfg w = false →
      Step mode (.thread (.inl w)) s (s.pcAt (.inl w) (.scanning (scan false)))
  /-- An aging turn looks at the global queue first. -/
  | aged {s w cfg h p g} : mode = .stealing cfg → s.pc (.inl w) = .acquiring →
      s.lowestFirst cfg w = true → s.global.pop true = some (h, p, g) →
      Step mode (.thread (.inl w)) s (((s.globalAt g).popped w).hand w (h, p))
  | ageMiss {s w cfg} : mode = .stealing cfg → s.pc (.inl w) = .acquiring →
      s.lowestFirst cfg w = true → s.global.pop true = none →
      Step mode (.thread (.inl w)) s (s.pcAt (.inl w) (.scanning (scan true)))
  -- `pop_local`
  | skip {s w cfg p rest} : mode = .stealing cfg → s.pc (.inl w) = .scanning (p :: rest) →
      cfg.skipEmptyDeques = true → s.deques (w, p) = [] →
      Step mode (.thread (.inl w)) s (s.pcAt (.inl w) (.scanning rest))
  | probed {s w cfg p rest} : mode = .stealing cfg → s.pc (.inl w) = .scanning (p :: rest) →
      (cfg.skipEmptyDeques = true → s.deques (w, p) ≠ []) →
      Step mode (.thread (.inl w)) s (s.pcAt (.inl w) (.popping p rest))
  | popTook {s w p rest d h} : s.pc (.inl w) = .popping p rest → s.deques (w, p) = d ++ [h] →
      Step mode (.thread (.inl w)) s (((s.dequeAt (w, p) d).popped w).hand w (h, p))
  | popMiss {s w p rest} : s.pc (.inl w) = .popping p rest → s.deques (w, p) = [] →
      Step mode (.thread (.inl w)) s (s.pcAt (.inl w) (.scanning rest))
  -- `drain_global`
  | drain {s w cfg h p g} : mode = .stealing cfg → s.pc (.inl w) = .scanning [] →
      s.global.pop (s.lowestFirst cfg w) = some (h, p, g) →
      Step mode (.thread (.inl w)) s
        (((s.globalAt g).popped w).pcAt (.inl w) (.batching 1 (h, p)))
  | drainMiss {s w cfg} (start : Fin n) : mode = .stealing cfg → s.pc (.inl w) = .scanning [] →
      s.global.pop (s.lowestFirst cfg w) = none →
      Step mode (.thread (.inl w)) s (s.pcAt (.inl w) (.stealing (victims w start)))
  | pull {s w i first h p g} : s.pc (.inl w) = .batching i first → i < kGlobalDrainBatch →
      s.global.pop false = some (h, p, g) →
      Step mode (.thread (.inl w)) s ((s.globalAt g).pcAt (.inl w) (.stocking i first (h, p)))
  | pullMiss {s w i first} : s.pc (.inl w) = .batching i first → i < kGlobalDrainBatch →
      s.global.pop false = none →
      Step mode (.thread (.inl w)) s (s.pcAt (.inl w) (.drained first))
  | batched {s w i first} : s.pc (.inl w) = .batching i first → ¬i < kGlobalDrainBatch →
      Step mode (.thread (.inl w)) s (s.pcAt (.inl w) (.drained first))
  | stocked {s w cfg i first x} : mode = .stealing cfg → s.pc (.inl w) = .stocking i first x →
      (s.deques (w, x.2)).length < capacity cfg →
      Step mode (.thread (.inl w)) s
        ((s.dequeAt (w, x.2) (s.deques (w, x.2) ++ [x.1])).pcAt (.inl w) (.batching (i + 1) first))
  | stockFull {s w cfg i first x} : mode = .stealing cfg → s.pc (.inl w) = .stocking i first x →
      ¬(s.deques (w, x.2)).length < capacity cfg →
      Step mode (.thread (.inl w)) s (s.pcAt (.inl w) (.restocking first x))
  | restocked {s w first x} : s.pc (.inl w) = .restocking first x →
      Step mode (.thread (.inl w)) s
        ((s.globalAt (s.global.push x.1 x.2)).pcAt (.inl w) (.drained first))
  | drained {s w first} : s.pc (.inl w) = .drained first →
      Step mode (.thread (.inl w)) s (s.hand w first)
  -- `steal_from_others`
  | stole {s w x rest h d} : s.pc (.inl w) = .stealing (x :: rest) → s.deques x = h :: d →
      Step mode (.thread (.inl w)) s ((s.dequeAt x d).hand w (h, x.2))
  | stealMiss {s w x rest} : s.pc (.inl w) = .stealing (x :: rest) → s.deques x = [] →
      Step mode (.thread (.inl w)) s (s.pcAt (.inl w) (.stealing rest))
  | stealAbort {s w x rest} : s.pc (.inl w) = .stealing (x :: rest) →
      Step mode (.abort w) s (s.pcAt (.inl w) (.stealing rest))
  | missed {s w} : s.pc (.inl w) = .stealing [] →
      Step mode (.thread (.inl w)) s (s.pcAt (.inl w) (.returned none))
  /-- The caller goes on: it runs the task, or has none. -/
  | resume {s w r} : s.pc (.inl w) = .returned r →
      Step mode (.thread (.inl w)) s (s.pcAt (.inl w) .outside)

def initial : State n External where
  global := .empty
  deques _ := []
  inbox _ := .empty
  cursor := 0
  pop_index _ := 0
  pc _ := .outside
  enqueued := 0
  handed := 0

/-- The runtime with `n` workers, and `External` threads that submit to it. -/
def system (mode : Mode) (n : ℕ) (External : Type) [DecidableEq External] :
    System (State n External) (Act n External) :=
  ⟨fun s => s = initial, Step mode⟩

/-! ### Where a task can be -/

inductive Place (n : ℕ) (External : Type) where
  | global (p : TaskPriority)
  | deque (x : DequeId n)
  | inbox (w : Fin n) (p : TaskPriority)
  /-- In the hands of a thread. -/
  | thread (t : Fin n ⊕ External)
  /-- Returned by `acquire_next`. -/
  | returned
  deriving DecidableEq

/-- The class a container keeps. -/
def Place.priority : Place n External → Option TaskPriority
  | global p | deque (_, p) | inbox _ p => some p
  | _ => none

/-- What is kept there. -/
def State.kept (s : State n External) : Place n External → Multiset Entry
  | .global p => ((s.global p).map (·, p) : List Entry)
  | .deque x => ((s.deques x).map (·, x.2) : List Entry)
  | .inbox w p => ((s.inbox w p).map (·, p) : List Entry)
  | .thread t => (s.pc t).holds
  | .returned => s.handed

/-- How often a handle occurs. -/
def times (h : TaskHandle) (m : Multiset Entry) : ℕ := (m.map Prod.fst).count h

end Thunderbolt.Scheduler.Dispatch
